import P2P.Peer.DownloadRuns

/-!
# What keeps a download alive

The DATA branch of `dealwithincomepack` refreshes the timestamp of a connection before
`upon_receiving_datapack` looks at the packet, so a packet that is discarded keeps the
connection alive like any other.

`discarded_packets_iff`: packets that are discarded leave the timestamp alone, and the
download is cancelled when it is due, exactly if they all arrive in the second in which the
timestamp was set.
-/

namespace P2P

open Lib

namespace DownloadConn

variable {config : Config} {d : DownloadConn} {addr : SockAddr} {k : Nat} {conn : HashChunk}
  {rev : RecvState} {pack : Packet} {now t : Int}

/-- Node `k` of `downloading_list` was refreshed at `t`. -/
def Stamped (k : Nat) (t : Int) (d : DownloadConn) : Prop :=
  (d.downloadingList[k]?).map HashChunk.timestamp = some t

theorem Stamped.cancelled (h : d.Stamped k t) (hdue : 5 * timeoutSec < now - t) :
    ∃ d', checkRecvdataTimeout now k d = some (d', 1) := by
  obtain ⟨curr, hcurr, rfl⟩ := Option.map_eq_some_iff.mp h
  have hexpired : curr.expired now = true := by
    rw [HashChunk.expired, decide_eq_true_eq]
    exact hdue
  rw [checkRecvdataTimeout, hcurr, Option.map_some, if_pos hexpired]
  exact ⟨_, rfl⟩

theorem findNodeByAddr_refreshed (h : findNodeByAddr d.downloadingList addr = some (k, conn))
    (now : Int) : findNodeByAddr (d.downloadingList.set k { conn with timestamp := now }) addr =
      some (k, { conn with timestamp := now }) := by
  refine findFirst_set h ?_
  rw [sameAddr_iff]
  exact (findNodeByAddr_spec h).2

theorem receiveOn_discarded (hconn : d.downloadingList[k]? = some conn)
    (hrev : conn.recver = some rev) (hno : ¬ rev.Accepts (toI32 pack.seqNum.toNat)) :
    receiveOn pack k d = some (d, []) := by
  have hdrop : uponReceivingDatapack pack rev = some (rev, []) := by
    unfold uponReceivingDatapack
    exact if_pos ((rev.lt_one_or_maxSeq_lt _).mpr hno)
  have hsame : { conn with recver := some rev } = conn := by
    rw [← hrev]
  have hset : d.downloadingList.set k conn = d.downloadingList := by
    obtain ⟨h, rfl⟩ := List.getElem?_eq_some_iff.mp hconn
    exact List.set_getElem_self h
  rw [receiveOn, hconn, Option.bind_some, hrev, Option.bind_some, hdrop, Option.map_some]
  simp only [hsame, hset]

/-- **A packet that is discarded** refreshes the connection and does nothing else. -/
theorem next_discarded (hfind : findNodeByAddr d.downloadingList addr = some (k, conn))
    (hrev : conn.recver = some rev) (hno : ¬ rev.Accepts (toI32 pack.seqNum.toNat)) :
    d.next config (.data pack addr now) =
      some { d with
        downloadingList := d.downloadingList.set k { conn with timestamp := now } } := by
  have hk : k < d.downloadingList.length :=
    (List.getElem?_eq_some_iff.mp (findNodeByAddr_spec hfind).1).1
  have hrev' : HashChunk.recver { conn with timestamp := now } = some rev := hrev
  rw [next, dealwithData, hfind]
  simp only
  rw [receiveOn_discarded (List.getElem?_set_self hk) hrev' hno]
  rfl

theorem exec_discarded (config : Config) {arrivals : List (Packet × Int)}
    (hno : ∀ a ∈ arrivals, ¬ rev.Accepts (toI32 a.1.seqNum.toNat)) :
    ∀ {d : DownloadConn} {conn : HashChunk},
      findNodeByAddr d.downloadingList addr = some (k, conn) → conn.recver = some rev →
      ∃ d', exec (next config) d (arrivals.map fun a => .data a.1 addr a.2) = some d' ∧
        (Always (next config) (Stamped k t) d (arrivals.map fun a => .data a.1 addr a.2) ↔
          conn.timestamp = t ∧ ∀ a ∈ arrivals, a.2 = t) := by
  induction arrivals with
  | nil =>
    intro d conn hfind _
    refine ⟨d, rfl, ?_⟩
    show d.Stamped k t ↔ _
    rw [Stamped, (findNodeByAddr_spec hfind).1, Option.map_some, Option.some.injEq]
    simp
  | cons a arrivals ih =>
    intro d conn hfind hrev
    have hstep : d.next config (.data a.1 addr a.2) = _ :=
      next_discarded hfind hrev (hno a List.mem_cons_self)
    obtain ⟨d', hrun, halways⟩ :=
      ih (fun b hb => hno b (List.mem_cons_of_mem a hb)) (d := { d with
        downloadingList := d.downloadingList.set k { conn with timestamp := a.2 } })
        (findNodeByAddr_refreshed hfind a.2) hrev
    refine ⟨d', (exec_step hstep _).trans hrun, ?_⟩
    have hhead : d.Stamped k t ↔ conn.timestamp = t := by
      rw [Stamped, (findNodeByAddr_spec hfind).1, Option.map_some, Option.some.injEq]
    rw [List.map_cons, Always, hstep, List.forall_mem_cons, hhead, ← halways]
    refine and_congr_right fun _ => ⟨fun h => h _ rfl, ?_⟩
    rintro h d₁ heq
    cases heq
    exact h

end DownloadConn

/-- **Discarded packets do not keep a dead download alive** exactly if they arrive in the second of
the last refresh: then the timestamp stays as it is, and `check_recvdata_timeout` cancels the
download whenever more than five timeouts have passed since. -/
theorem discarded_packets_iff (config : Config) {down : DownloadConn} {addr : SockAddr} {k : Nat}
    {conn : HashChunk} {rev : RecvState}
    (hfind : findNodeByAddr down.downloadingList addr = some (k, conn))
    (hrev : conn.recver = some rev) (arrivals : List (Packet × Int))
    (hno : ∀ a ∈ arrivals, ¬ rev.Accepts (toI32 a.1.seqNum.toNat)) :
    ∃ down', exec (DownloadConn.next config) down
        (arrivals.map fun a => .data a.1 addr a.2) = some down' ∧
      (Always (DownloadConn.next config) (DownloadConn.Stamped k conn.timestamp) down
          (arrivals.map fun a => .data a.1 addr a.2) ∧
        (∀ now, 5 * timeoutSec < now - conn.timestamp →
          ∃ down'', checkRecvdataTimeout now k down' = some (down'', 1)) ↔
        ∀ a ∈ arrivals, a.2 = conn.timestamp) := by
  obtain ⟨down', hrun, halways⟩ := DownloadConn.exec_discarded config (t := conn.timestamp) hno
    hfind hrev
  refine ⟨down', hrun, ?_⟩
  constructor
  · rintro ⟨hkept, -⟩
    exact (halways.mp hkept).2
  · intro htimes
    have hkept := halways.mpr ⟨rfl, htimes⟩
    have hlast : down'.Stamped k conn.timestamp := by
      rw [← List.append_nil (arrivals.map _)] at hkept
      exact hkept.of_exec hrun
    exact ⟨hkept, fun now hdue => hlast.cancelled hdue⟩

/-- A download from one peer, with nothing received yet, that was refreshed at time 1. -/
def oneDownload : DownloadConn :=
  { initDownloadConn ⟨4, ⟨0, 1⟩⟩ with
    downloadingList := [{ createNode ⟨0, 2⟩ (Vector.replicate hashSize 5) 0 with
      timestamp := 1
      recver := some (createRecver (Vector.replicate hashSize 5)) }] }

theorem oneDownload_discards : ¬ (createRecver (Vector.replicate hashSize 5)).Accepts
    (toI32 (formDataPack [1] 1 600).seqNum.toNat) := by
  rintro ⟨-, -, h⟩
  exact absurd h (by decide)

/-- A packet with number 600 arrives in the second of the refresh. -/
theorem discarded_in_same_second :
    ∃ down' : DownloadConn,
      exec (DownloadConn.next ⟨4, ⟨0, 1⟩⟩) oneDownload [.data (formDataPack [1] 1 600) ⟨0, 2⟩ 1] =
        some down' ∧
      ∃ down'', checkRecvdataTimeout 12 0 down' = some (down'', 1) := by
  have hfind : findNodeByAddr oneDownload.downloadingList ⟨0, 2⟩ = some (0, _) := rfl
  obtain ⟨down', hrun, hiff⟩ := discarded_packets_iff ⟨4, ⟨0, 1⟩⟩ hfind rfl
    [(formDataPack [1] 1 600, 1)] (List.forall_mem_singleton.mpr oneDownload_discards)
  have hkept := hiff.mpr (List.forall_mem_singleton.mpr rfl)
  exact ⟨down', hrun, hkept.2 12 (by decide)⟩

/-- A packet with number 600 arrives 100 seconds after the last one that was accepted, and 5 seconds
later the download is not cancelled. -/
theorem discarded_packet_keeps_alive :
    ∃ down' : DownloadConn,
      exec (DownloadConn.next ⟨4, ⟨0, 1⟩⟩) oneDownload [.data (formDataPack [1] 1 600) ⟨0, 2⟩ 101] =
        some down' ∧
      ¬ down'.Stamped 0 1 ∧ checkRecvdataTimeout 106 0 down' = some (down', 0) := by
  have hfind : findNodeByAddr oneDownload.downloadingList ⟨0, 2⟩ = some (0, _) := rfl
  refine ⟨_, exec_step (DownloadConn.next_discarded hfind rfl oneDownload_discards) [], ?_, rfl⟩
  intro hstamped
  exact absurd (Option.some.inj hstamped) (by decide)

end P2P
