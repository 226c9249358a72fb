import P2P.Peer.Inbound
import P2P.Peer.MainLoop

/-!
# Passes that go through

What the parts of a pass of the main loop do when nothing goes wrong: a datagram in an empty buffer
is one packet, the part before the sweeps always returns, and the sweeps of a peer with at most one
download return unless it is given up.

`Mem.exists_peerPass`: **a pass goes through** if its parts do.
-/

namespace P2P

open Lib

namespace Mem

variable {fl : Rounding} {shahash : List UInt8 → Hash} {config : Config}
  {haslist : List HashChunk} {peer : Peer} {addr : SockAddr} {down : Downloads}
  {d d' : DownloadConn}

/-! ## A packet -/

theorem receivePackets_of_call {b b' : Buf} {d : List UInt8} {calls : List (Packet × SockAddr)}
    (hcall : P2P.processInboundUdp b addr d = some (calls, b')) :
    ∃ packs, receivePackets (some d) b = some (packs, b') ∧ calls = packs.map (·, addr) := by
  obtain ⟨b₁, xs, packs, hrecv, hrun, hpacks, hcalls⟩ := processInboundUdp_cases hcall
  refine ⟨packs, ?_, hcalls⟩
  rw [receivePackets, hrecv, Option.bind_some, hrun]
  simp only [mapM_eq_some_iff.mpr hpacks, Option.map_some]

theorem receivePackets_one {pack : Packet} (hp : Formed pack) {b : Buf} (hb : b.bufLen = 0) :
    ∃ b', receivePackets (datagram pack) b = some ([pack], b') ∧ b'.bufLen = 0 := by
  obtain ⟨d, b', hd, hcall, hb'⟩ := alone_of_empty hp hb ⟨0, 0⟩
  obtain ⟨packs, hpacks, hcalls⟩ := receivePackets_of_call hcall
  obtain rfl : packs = [pack] := by
    have hmap := congrArg (List.map Prod.fst) hcalls
    rw [List.map_map] at hmap
    simpa using hmap.symm
  exact ⟨b', hd ▸ hpacks, hb'⟩

theorem processInboundUdp_one {pack : Packet} (hp : Formed pack) {a : Arrival}
    (ha : a.received = datagram pack) (hb : peer.recvBuf.bufLen = 0) :
    ∃ b, b.bufLen = 0 ∧ processInboundUdp fl haslist a peer = handlePacket fl haslist a.fromAddr
      { peer with recvBuf := b } ⟨pack.withBehind (a.behind 0), a.file 0, a.clock 0⟩ := by
  obtain ⟨b, hpacks, hzero⟩ := receivePackets_one hp hb
  refine ⟨b, hzero, ?_⟩
  rw [processInboundUdp, ha, hpacks, Option.bind_some]
  exact Option.bind_fun_some _

/-! ## Timeouts and GETs -/

theorem exists_askPeers {now₁ now₂ count : Int} {gets : List (SockAddr × Packet)}
    (hd : down.Represents d)
    (hget : P2P.getSender now₂ (P2P.checkTimeout now₁ d).1 = some (d', count, gets)) :
    ∃ down', askPeers now₁ now₂ down = some down' ∧ down'.Represents d' := by
  obtain ⟨down₁, count₁, hrun₁, hdown₁, -⟩ := checkTimeout_rel now₁ hd
  obtain ⟨down₂, d₂, count₂, trace, hrun₂, hget₂, hdown₂⟩ := getSender_rel now₂ hdown₁
  cases hget.symm.trans hget₂
  refine ⟨down₂, ?_, hdown₂⟩
  rw [askPeers, hrun₁, Option.bind_some, hrun₂, Option.bind_some]
  split
  · -- the question to all peers reads the lists
    obtain ⟨need, queue, sent, load, hs, -⟩ := hdown₂
    obtain ⟨batches, hask, -⟩ := whoHasSendLoop_spec (down₂.conn need queue sent load) _
      (contents need) (le_refl _)
    rw [whoHasSender_eq hs, P2P.whoHasSender, hask, Option.map_some]
  · rfl

/-! ## The sweeps -/

theorem sweepUploads_nothing (fl : Rounding) (ticks : Nat → Visit) {up : Uploads}
    (hnone : up.uploadingList = none) : sweepUploads fl ticks up = some (up, []) := by
  rw [sweepUploads, hnone]
  rfl

theorem sweepDownloads_nothing (shahash : List UInt8 → Hash) (clock : Nat → Int)
    (outputFd : OutFile) (hd : down.Represents d) (hload : d.downloadingList = []) :
    sweepDownloads shahash clock down outputFd = some (down, outputFd, []) := by
  obtain ⟨need, queue, sent, load, hs, rfl⟩ := hd
  have hnil : load = [] := List.map_eq_nil_iff.mp hload
  rw [sweepDownloads, hs.holds.downloadingList.start, hnil]
  rfl

theorem sweepDownloads_live (shahash : List UInt8 → Hash) {clock : Nat → Int}
    (outputFd : OutFile) {x : HashChunk} {r : RecvState} (hd : down.Represents d)
    (hload : d.downloadingList = [x]) (hr : x.recver = some r)
    (hopen : r.recvBytesnum ≠ chunkSize) (hlate : ¬ x.expired (clock 0)) :
    ∃ visited, sweepDownloads shahash clock down outputFd = some (down, outputFd, visited) := by
  obtain ⟨need, queue, sent, load, hs, rfl⟩ := hd
  obtain ⟨⟨a, x'⟩, rfl, hx⟩ := List.map_eq_singleton_iff.mp hload
  obtain rfl : x' = x := hx
  have hs : down.Owns need queue sent ([] ++ (a, x') :: []) := hs
  have hvisit := visitDownload_live shahash outputFd hs.holds hr hopen hlate
  obtain ⟨n, hn⟩ := Nat.exists_eq_add_one.mpr hs.holds.downloadingList.length_le
  refine ⟨[a], ?_⟩
  rw [sweepDownloads, hs.holds.downloadingList.start, hn, List.nil_append, List.head?_cons,
    Option.map_some, downloadLoop, hvisit]
  rfl

theorem sweepDownloads_last (shahash : List UInt8 → Hash) (clock : Nat → Int) {x y : HashChunk}
    {r : RecvState} {me : Mydownload} (hd : down.Represents me.conn)
    (hload : me.conn.downloadingList = [x]) (hneed : me.conn.needlist = [y])
    (hr : x.recver = some r) (hfin : r.recvBytesnum = chunkSize) (hy : y.hash = x.hash) :
    ∃ down' me' visited, me.sweep shahash 0 = some me' ∧
      sweepDownloads shahash clock down me.outputFd = some (down', me'.outputFd, visited) ∧
      down'.Represents me'.conn := by
  obtain ⟨need, queue, sent, load, hs, hconn⟩ := hd
  rw [← hconn] at hload hneed
  obtain ⟨⟨a, x'⟩, rfl, hx⟩ := List.map_eq_singleton_iff.mp hload
  obtain ⟨⟨b, y'⟩, rfl, hy'⟩ := List.map_eq_singleton_iff.mp hneed
  obtain rfl : x' = x := hx
  obtain rfl : y' = y := hy'
  have hs : down.Owns [(b, y')] queue sent ([] ++ (a, x') :: []) := hs
  obtain ⟨down', hvisit, -⟩ :=
    visitDownload_last shahash (clock 0) me.outputFd hs.holds hr hfin hy
  obtain ⟨-, me', hsweep, hdown', hout⟩ :=
    visitDownload_sweep hs hr hfin hy hvisit hconn.symm rfl
  obtain ⟨n, hn⟩ := Nat.exists_eq_add_one.mpr hs.holds.downloadingList.length_le
  refine ⟨down', me', [a], hsweep, ?_, hdown'⟩
  rw [sweepDownloads, hs.holds.downloadingList.start, hn, List.nil_append, List.head?_cons,
    Option.map_some, downloadLoop, hvisit, hout]
  rfl

/-! ## A pass -/

/-- **A pass** goes through if its parts do. -/
theorem exists_peerPass {p : Pass} {peer₁ peer₂ : Peer} {mid after final : DownloadConn}
    {out : OutFile} {count : Int} {gets : List (SockAddr × Packet)}
    (harrival : p.arrival = none ∧ peer₁ = peer ∨
      ∃ a, p.arrival = some a ∧ processInboundUdp fl haslist a peer = some peer₁)
    (htyped : p.typed = none ∧ peer₂ = peer₁ ∨
      ∃ t, p.typed = some t ∧ processUserInput config t peer₁ = some peer₂)
    (hmid : peer₂.mydownload.Represents mid) (hup : peer₂.myupload.uploadingList = none)
    (hget : P2P.getSender p.now₂ (P2P.checkTimeout p.now₁ mid).1 = some (after, count, gets))
    (hsweep : ∀ down, down.Represents after → ∃ down' visited,
      sweepDownloads shahash p.downloads down peer₂.outputFd = some (down', out, visited) ∧
        down'.Represents final) :
    ∃ down', down'.Represents final ∧ peerPass fl shahash config haslist peer p = some { peer₂ with
      mydownload := down'
      outputFd := out } := by
  obtain ⟨down, hask, hdown⟩ := exists_askPeers hmid hget
  obtain ⟨down', visited, hrun, hdown'⟩ := hsweep down hdown
  refine ⟨down', hdown', ?_⟩
  have hups := sweepUploads_nothing fl p.uploads hup
  unfold peerPass
  rcases harrival with ⟨ha, rfl⟩ | ⟨a, ha, hcall⟩
  · rcases htyped with ⟨ht, rfl⟩ | ⟨t, ht, hline⟩
    · simp only [ha, ht, Option.bind_some, hask, hups, hrun, Option.map_some]
    · simp only [ha, ht, hline, Option.bind_some, hask, hups, hrun, Option.map_some]
  · rcases htyped with ⟨ht, rfl⟩ | ⟨t, ht, hline⟩
    · simp only [ha, ht, hcall, Option.bind_some, hask, hups, hrun, Option.map_some]
    · simp only [ha, ht, hcall, hline, Option.bind_some, hask, hups, hrun, Option.map_some]

end Mem

end P2P
