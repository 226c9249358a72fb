import P2P.Peer.Disk
import P2P.Peer.DownloadMem
import P2P.Peer.UploadSweep
import P2P.Transfer.Completion

/-!
# The sweeps of the main loop

The sweep over `downloading_list` with the pointers it follows. A visit that finishes or
cancels a download deletes its node, and the loop then reads the timestamp or the `next` of that
node; only `complete_mydownload` leaves the loop in time.

`Mem.sweeps_iff`: one pass of the main loop visits and removes what it should exactly if no
upload is timed out, and the first download that has ended, if there is one, is finished and its
chunk the only one that is needed.
-/

namespace P2P

open Lib

namespace Mem

section
variable (shahash : List UInt8 → Hash)

/-- The end of the body: the timer, and the step to the next node. -/
def timeoutAndNext (now : Int) (currdownload : Nat) (down : Downloads) (outputFd : OutFile) :
    Option (Downloads × OutFile × Option Nat) :=
  (checkRecvdataTimeout now currdownload down).bind fun (down, _) =>
    (down.heap.read currdownload).map fun node => (down, outputFd, node.next)

/-- The body of the loop: the new state, the file, and the node the loop goes on with. -/
def visitDownload (now : Int) (currdownload : Nat) (down : Downloads) (outputFd : OutFile) :
    Option (Downloads × OutFile × Option Nat) :=
  (down.heap.read currdownload).bind fun node =>
    node.data.recver.bind fun recver =>
      if recver.recvBytesnum = chunkSize then
        let outputFd := afterReap shahash recver node.data.chunkid outputFd
        (finishOneDownload currdownload down).bind fun down =>
          if down.needlist = none then
            -- `break`
            (completeMydownload down).map fun down => (down, outputFd, none)
          else timeoutAndNext now currdownload down outputFd
      else timeoutAndNext now currdownload down outputFd

/-- The loop from visit `i` on, with the nodes visited. -/
def downloadLoop (clock : Nat → Int) :
    Nat → Nat → Option Nat → Downloads → OutFile → Option (Downloads × OutFile × List Nat)
  | 0, _, _, _, _ => none
  | _ + 1, _, none, down, outputFd => some (down, outputFd, [])
  | n + 1, i, some currdownload, down, outputFd =>
    (visitDownload shahash (clock i) currdownload down outputFd).bind fun (down, outputFd, next) =>
      (downloadLoop clock n (i + 1) next down outputFd).map fun (down, outputFd, visited) =>
        (down, outputFd, currdownload :: visited)

/-- The download sweep of `peer_run`. -/
def sweepDownloads (clock : Nat → Int) (down : Downloads) (outputFd : OutFile) :
    Option (Downloads × OutFile × List Nat) :=
  downloadLoop shahash clock (down.heap.size + 1) 0 down.downloadingList down outputFd

end

/-! ## What is to happen -/

def downloadFate (now : Int) (x : HashChunk) : Fate :=
  if x.recver.any fun r : RecvState => r.recvBytesnum = chunkSize then .finished
  else if x.expired now then .timedOut
  else .live

def downloadFates (clock : Nat → Int) (i : Nat) : HashChunk → Fate := downloadFate (clock i)

/-- Every download has the receiver that `init_download` made. -/
def Receives (load : List (Nat × HashChunk)) : Prop := ∀ e ∈ load, ∃ r, e.2.recver = some r

/-- **What a download sweep is to do** with the nodes `seen`: each is visited once, the downloads
finished or cancelled are freed and counted. No node is left over unless all lists are empty. -/
structure DownloadsSwept (clock : Nat → Int) (seen rest : List (Nat × HashChunk))
    (down down' : Downloads) (visited : List Nat) : Prop where
  visited : visited = seen.map Prod.fst
  ending : (rest = [] ∧ ∃ load, down'.heap.IsList down'.downloadingList load ∧
      load.map Prod.fst = fated (downloadFates clock) .live 0 seen) ∨
    down'.needlist = none ∧ down'.getTosendQuene = none ∧ down'.getSentList = none ∧
      down'.downloadingList = none
  freed : ∀ a ∈ fated (downloadFates clock) .finished 0 seen ++
    fated (downloadFates clock) .timedOut 0 seen, down'.heap.read a = none
  concurr : down'.concurrDownloadNum = down.concurrDownloadNum -
    ((fated (downloadFates clock) .finished 0 seen).length +
      (fated (downloadFates clock) .timedOut 0 seen).length)
  found : down'.howmanyFound =
    down.howmanyFound - (fated (downloadFates clock) .timedOut 0 seen).length

/-- The first download that is not live, visited from `i` on. -/
def firstEnded (clock : Nat → Int) (i : Nat) (load : List (Nat × HashChunk)) :
    Option ((Nat × HashChunk) × Nat) :=
  (load.zipIdx i).find? fun e => downloadFates clock e.2 e.1.2 ≠ .live

/-- The first download that has ended is finished, and nothing but its chunk is needed. -/
def LastChunk (clock : Nat → Int) (need : List (Nat × HashChunk)) (i : Nat)
    (load : List (Nat × HashChunk)) : Prop :=
  ∀ e j, firstEnded clock i load = some (e, j) →
    downloadFates clock j e.2 = .finished ∧ need.map (fun e => e.2.hash) = [e.2.hash]

/-! ## One visit -/

section
variable {shahash : List UInt8 → Hash} {down : Downloads} {outputFd : OutFile} {a b : Nat}
  {x y : HashChunk} {r : RecvState} {now : Int} {need queue sent load pre post np nq :
    List (Nat × HashChunk)}

theorem downloadFate_cases (now : Int) (hr : x.recver = some r) :
    downloadFate now x = .finished ∧ r.recvBytesnum = chunkSize ∨
    downloadFate now x = .timedOut ∧ r.recvBytesnum ≠ chunkSize ∧ x.expired now ∨
    downloadFate now x = .live ∧ r.recvBytesnum ≠ chunkSize ∧ ¬ x.expired now := by
  have hany : (x.recver.any fun r : RecvState => r.recvBytesnum = chunkSize) = true ↔
      r.recvBytesnum = chunkSize := by
    rw [hr, Option.any_some, decide_eq_true_eq]
  unfold downloadFate
  by_cases hfin : r.recvBytesnum = chunkSize
  · exact .inl ⟨if_pos (hany.mpr hfin), hfin⟩
  · rw [if_neg fun h => hfin (hany.mp h)]
    by_cases hlate : x.expired now
    · exact .inr (.inl ⟨if_pos hlate, hfin, hlate⟩)
    · exact .inr (.inr ⟨if_neg hlate, hfin, hlate⟩)

theorem visitDownload_live (shahash : List UInt8 → Hash) (outputFd : OutFile)
    (hd : down.Holds need queue sent (pre ++ (a, x) :: post)) (hr : x.recver = some r)
    (hopen : r.recvBytesnum ≠ chunkSize) (hlate : ¬ x.expired now) :
    visitDownload shahash now a down outputFd =
      some (down, outputFd, post.head?.map Prod.fst) := by
  rw [visitDownload, hd.downloadingList.next, Option.bind_some]
  simp only [hr, Option.bind_some, if_neg hopen]
  rw [timeoutAndNext, (checkRecvdataTimeout_live hd hlate).1, Option.bind_some]
  simp only [hd.downloadingList.next, Option.map_some]

/-- **A download cancelled** is deleted, and then the loop reads its `next`. -/
theorem visitDownload_timedOut (shahash : List UInt8 → Hash) (outputFd : OutFile)
    (hd : down.Holds need queue sent (pre ++ (a, x) :: post)) (hr : x.recver = some r)
    (hopen : r.recvBytesnum ≠ chunkSize) (hlate : x.expired now) :
    visitDownload shahash now a down outputFd = none := by
  obtain ⟨down', hcancel, -, hfreed, -⟩ := checkRecvdataTimeout_expired hd hlate
  rw [visitDownload, hd.downloadingList.next, Option.bind_some]
  simp only [hr, Option.bind_some, if_neg hopen]
  rw [timeoutAndNext, hcancel, Option.bind_some]
  simp only [hfreed, Option.map_none]

theorem visitDownload_finished (shahash : List UInt8 → Hash) (now : Int) (outputFd : OutFile)
    (hd : down.Holds need queue sent (pre ++ (a, x) :: post)) (hr : x.recver = some r)
    (hfin : r.recvBytesnum = chunkSize) :
    visitDownload shahash now a down outputFd =
      (finishOneDownload a down).bind fun down =>
        if down.needlist = none then
          (completeMydownload down).map fun down =>
            (down, afterReap shahash r x.chunkid outputFd, none)
        else timeoutAndNext now a down (afterReap shahash r x.chunkid outputFd) := by
  rw [visitDownload, hd.downloadingList.next, Option.bind_some]
  simp only [hr, Option.bind_some, if_pos hfin]

/-- **The last chunk**: the loop is left with all lists empty. -/
theorem visitDownload_last (shahash : List UInt8 → Hash) (now : Int) (outputFd : OutFile)
    (hd : down.Holds [(b, y)] queue sent (pre ++ (a, x) :: post)) (hr : x.recver = some r)
    (hfin : r.recvBytesnum = chunkSize) (hy : y.hash = x.hash) :
    ∃ down', visitDownload shahash now a down outputFd =
        some (down', afterReap shahash r x.chunkid outputFd, none) ∧
      down'.Holds [] [] [] [] ∧ down'.heap.read a = none ∧
      down'.concurrDownloadNum = down.concurrDownloadNum - 1 ∧
      down'.howmanyFound = down.howmanyFound ∧
      finishDownload (contents pre).length
          (down.conn [(b, y)] queue sent (pre ++ (a, x) :: post)) =
        some (down'.conn [] [] [] []) := by
  have hvisit := visitDownload_finished shahash now outputFd hd hr hfin
  have hneed : down.Holds ([] ++ (b, y) :: []) queue sent (pre ++ (a, x) :: post) := hd
  obtain ⟨down₁, hfinish, hd₁, hfreed, hconcurr, hfound, hconn₁⟩ :=
    finishOneDownload_spec hneed hy (by simp)
  obtain ⟨down', hcomplete, hd', -, hnone, hconn⟩ := completeMydownload_spec hd₁
  have hempty : down₁.needlist = none := hd₁.needlist
  refine ⟨down', ?_, hd', hnone a hfreed, ?_, ?_, ?_⟩
  · rw [hvisit, hfinish, Option.bind_some, if_pos hempty, hcomplete, Option.map_some]
  · rw [← hconcurr]
    exact congrArg DownloadConn.concurrDownloadNum hconn
  · rw [← hfound]
    exact congrArg DownloadConn.howmanyFound hconn
  · simp only [List.nil_append] at hconn₁ hconn
    rw [finishDownload, hconn₁, Option.map_some, hconn, if_pos]
    rfl

/-- **Another chunk is needed**: the timer reads the node that was deleted. -/
theorem visitDownload_notLast (shahash : List UInt8 → Hash) (outputFd : OutFile)
    (hd : down.Holds need queue sent (pre ++ (a, x) :: post)) (hr : x.recver = some r)
    (hfin : r.recvBytesnum = chunkSize)
    (hneed : need.map (fun e => e.2.hash) ≠ [x.hash]) :
    visitDownload shahash now a down outputFd = none := by
  rw [visitDownload_finished shahash now outputFd hd hr hfin]
  cases hfind : need.find? fun e => e.2.hash == x.hash with
  | none =>
    have hno : ∀ e ∈ need, e.2.hash ≠ x.hash := by simpa using List.find?_eq_none.mp hfind
    rw [finishOneDownload_none hd hno, Option.bind_none]
  | some e =>
    obtain ⟨hy, np, nq, rfl, hnp⟩ := List.find?_eq_some_iff_append.mp hfind
    obtain ⟨down₁, hfinish, hd₁, hfreed, -⟩ :=
      finishOneDownload_spec hd (by simpa using hy) (by simpa using hnp)
    have hmore : down₁.needlist ≠ none := by
      rw [hd₁.needlist.start]
      cases np with
      | nil =>
        cases nq with
        | nil => exact fun _ => hneed (by simpa using hy)
        | cons e' nq => exact Option.some_ne_none _
      | cons e' np => exact Option.some_ne_none _
    rw [hfinish, Option.bind_some, if_neg hmore, timeoutAndNext, checkRecvdataTimeout, hfreed]
    rfl

/-! ## The loop -/

theorem firstEnded_cons (clock : Nat → Int) (i : Nat) (e : Nat × HashChunk)
    (load : List (Nat × HashChunk)) : firstEnded clock i (e :: load) =
      if downloadFates clock i e.2 = .live then firstEnded clock (i + 1) load
      else some (e, i) := by
  unfold firstEnded
  rw [List.zipIdx_cons, List.find?_cons]
  by_cases h : downloadFates clock i e.2 = .live
  · simp [h]
  · simp [h]

theorem lastChunk_ended {clock : Nat → Int} {i : Nat} {e : Nat × HashChunk}
    (h : downloadFates clock i e.2 ≠ .live) : LastChunk clock need i (e :: load) ↔
      downloadFates clock i e.2 = .finished ∧ need.map (fun e => e.2.hash) = [e.2.hash] := by
  unfold LastChunk
  rw [firstEnded_cons, if_neg h]
  constructor
  · intro hall
    exact hall e i rfl
  · rintro hlast e' j heq
    cases heq
    exact hlast

theorem lastChunk_live {clock : Nat → Int} {i : Nat} {e : Nat × HashChunk}
    (h : downloadFates clock i e.2 = .live) :
    LastChunk clock need i (e :: load) ↔ LastChunk clock need (i + 1) load := by
  unfold LastChunk
  rw [firstEnded_cons, if_pos h]

/-- What the loop has done with the nodes `seen`, visited from `i` on. `pre` are the nodes visited
before, which are live. -/
structure DownloadsSweptFrom (clock : Nat → Int) (i : Nat) (pre seen rest : List (Nat × HashChunk))
    (down down' : Downloads) : Prop where
  ending : (rest = [] ∧ ∃ load, down'.heap.IsList down'.downloadingList load ∧
      load.map Prod.fst = pre.map Prod.fst ++ fated (downloadFates clock) .live i seen) ∨
    down'.needlist = none ∧ down'.getTosendQuene = none ∧ down'.getSentList = none ∧
      down'.downloadingList = none
  freed : ∀ a ∈ fated (downloadFates clock) .finished i seen, down'.heap.read a = none
  lost : fated (downloadFates clock) .timedOut i seen = []
  concurr : down'.concurrDownloadNum =
    down.concurrDownloadNum - (fated (downloadFates clock) .finished i seen).length
  found : down'.howmanyFound = down.howmanyFound

section
variable {clock : Nat → Int} {i : Nat} {down' : Downloads} {seen rest : List (Nat × HashChunk)}

theorem DownloadsSweptFrom.nil (clock : Nat → Int) (i : Nat)
    (hlist : down.heap.IsList down.downloadingList pre) :
    DownloadsSweptFrom clock i pre [] [] down down := by
  refine ⟨.inl ⟨rfl, pre, hlist, by simp [fated]⟩, ?_, rfl, by simp [fated], rfl⟩
  rintro a ⟨⟩

theorem DownloadsSweptFrom.live
    (h : DownloadsSweptFrom clock (i + 1) (pre ++ [(a, x)]) seen rest down down')
    (hfate : downloadFates clock i x = .live) :
    DownloadsSweptFrom clock i pre ((a, x) :: seen) rest down down' := by
  have hkept : ∀ f, f ≠ .live → fated (downloadFates clock) f i ((a, x) :: seen) =
      fated (downloadFates clock) f (i + 1) seen := by
    intro f hf
    rw [fated_cons, hfate, if_neg hf.symm]
  refine ⟨h.ending.imp (fun hall => ⟨hall.1, ?_⟩) id, ?_, ?_, ?_, h.found⟩
  · obtain ⟨load, hload, haddr⟩ := hall.2
    refine ⟨load, hload, ?_⟩
    rw [haddr, fated_cons, if_pos hfate]
    simp
  · rw [hkept _ (by decide)]
    exact h.freed
  · rw [hkept _ (by decide)]
    exact h.lost
  · rw [hkept _ (by decide)]
    exact h.concurr

theorem DownloadsSweptFrom.last (pre rest : List (Nat × HashChunk))
    (hfate : downloadFates clock i x = .finished)
    (hd' : down'.Holds [] [] [] []) (hfreed : down'.heap.read a = none)
    (hconcurr : down'.concurrDownloadNum = down.concurrDownloadNum - 1)
    (hfound : down'.howmanyFound = down.howmanyFound) :
    DownloadsSweptFrom clock i pre [(a, x)] rest down down' := by
  have hended : fated (downloadFates clock) .finished i [(a, x)] = [a] := by
    rw [fated_cons, if_pos hfate]
    rfl
  have hlost : fated (downloadFates clock) .timedOut i [(a, x)] = [] := by
    rw [fated_cons, hfate]
    rfl
  refine ⟨.inr ⟨hd'.needlist, hd'.getTosendQuene, hd'.getSentList, hd'.downloadingList⟩,
    fun a' ha' => ?_, hlost, ?_, hfound⟩
  · rw [hended, List.mem_singleton] at ha'
    rw [ha', hfreed]
  · rw [hended, hconcurr]
    rfl

theorem DownloadsSweptFrom.swept (h : DownloadsSweptFrom clock 0 [] seen rest down down') :
    DownloadsSwept clock seen rest down down' (seen.map Prod.fst) := by
  refine ⟨rfl, h.ending, ?_, ?_, ?_⟩
  · rw [h.lost, List.append_nil]
    exact h.freed
  · rw [h.lost, h.concurr, List.length_nil, Int.natCast_zero, add_zero]
  · rw [h.lost, h.found, List.length_nil, Int.natCast_zero, sub_zero]

end

/-- **The loop from any node on.** `pre` are the nodes visited before, which are live. -/
theorem downloadLoop_cases (shahash : List UInt8 → Hash) (clock : Nat → Int) (outputFd : OutFile)
    {todo : List (Nat × HashChunk)} :
    ∀ {pre : List (Nat × HashChunk)} {n i : Nat}, down.Holds need queue sent (pre ++ todo) →
      Receives todo → todo.length < n →
      (LastChunk clock need i todo ∧ ∃ down' outputFd' seen rest, todo = seen ++ rest ∧
        downloadLoop shahash clock n i (todo.head?.map Prod.fst) down outputFd =
          some (down', outputFd', seen.map Prod.fst) ∧
        DownloadsSweptFrom clock i pre seen rest down down') ∨
      ¬ LastChunk clock need i todo ∧
        downloadLoop shahash clock n i (todo.head?.map Prod.fst) down outputFd = none := by
  induction todo with
  | nil =>
    intro pre n i hd hrecv hn
    obtain ⟨n, rfl⟩ : ∃ m, n = m + 1 := ⟨n - 1, by omega⟩
    rw [List.append_nil] at hd
    refine .inl ⟨fun e j heq => ?_, down, outputFd, [], [], rfl, rfl,
      .nil clock i hd.downloadingList⟩
    cases heq
  | cons e todo ih =>
    intro pre n i hd hrecv hn
    obtain ⟨n, rfl⟩ : ∃ m, n = m + 1 := ⟨n - 1, by omega⟩
    obtain ⟨a, x⟩ := e
    obtain ⟨r, hr⟩ := hrecv (a, x) List.mem_cons_self
    have hrecv' : Receives todo := fun e he => hrecv e (List.mem_cons_of_mem _ he)
    rw [List.length_cons] at hn
    simp only [List.head?_cons, Option.map_some, downloadLoop]
    rcases downloadFate_cases (clock i) hr with ⟨hfate, hfin⟩ | ⟨hfate, hopen, hlate⟩ |
      ⟨hfate, hopen, hlate⟩
    all_goals change downloadFates clock i x = _ at hfate
    · -- finished: all depends on the needlist
      rw [lastChunk_ended (e := (a, x)) (by rw [hfate]; decide)]
      by_cases hneed : need.map (fun e => e.2.hash) = [x.hash]
      · obtain ⟨⟨b, y⟩, rfl, hy⟩ := List.map_eq_singleton_iff.mp hneed
        obtain ⟨down', hvisit, hd', hfreed, hconcurr, hfound, -⟩ :=
          visitDownload_last shahash (clock i) outputFd hd hr hfin hy
        refine .inl ⟨⟨hfate, hneed⟩, down', afterReap shahash r x.chunkid outputFd, [(a, x)],
          todo, rfl, ?_, .last pre todo hfate hd' hfreed hconcurr hfound⟩
        rw [hvisit]
        cases n with
        | zero => omega
        | succ n => rfl
      · refine .inr ⟨fun hlast => hneed hlast.2, ?_⟩
        rw [visitDownload_notLast shahash outputFd hd hr hfin hneed, Option.bind_none]
    · -- timed out: the loop reads a node that was freed
      refine .inr ⟨fun hlast => ?_, ?_⟩
      · have hfirst := ((lastChunk_ended (e := (a, x)) (by rw [hfate]; decide)).mp hlast).1
        rw [hfate] at hfirst
        cases hfirst
      · rw [visitDownload_timedOut shahash outputFd hd hr hopen hlate, Option.bind_none]
    · -- live: nothing has changed
      rw [lastChunk_live (e := (a, x)) hfate,
        visitDownload_live shahash outputFd hd hr hopen hlate, Option.bind_some]
      rw [List.append_cons] at hd
      rcases ih (n := n) (i := i + 1) hd hrecv' (by omega) with
        ⟨hlast, down', out, seen, rest, rfl, hrun, hswept⟩ | ⟨hno, hrun⟩
      · refine .inl ⟨hlast, down', out, (a, x) :: seen, rest, rfl, ?_, hswept.live hfate⟩
        simp only [hrun, Option.map_some, List.map_cons]
      · exact .inr ⟨hno, by simp only [hrun, Option.map_none]⟩

/-- **The download sweep** does what it is to do exactly if the first download that has ended, if
there is one, has the last chunk. -/
theorem sweepDownloads_iff (shahash : List UInt8 → Hash) (clock : Nat → Int) (outputFd : OutFile)
    (hd : down.Holds need queue sent load) (hrecv : Receives load) :
    (∃ down' outputFd' visited seen rest, load = seen ++ rest ∧
      sweepDownloads shahash clock down outputFd = some (down', outputFd', visited) ∧
      DownloadsSwept clock seen rest down down' visited) ↔ LastChunk clock need 0 load := by
  have hlen : load.length < down.heap.size + 1 :=
    Nat.lt_succ_of_le hd.downloadingList.length_le
  have hrun : sweepDownloads shahash clock down outputFd =
      downloadLoop shahash clock (down.heap.size + 1) 0 (load.head?.map Prod.fst) down
        outputFd := by
    rw [sweepDownloads, hd.downloadingList.start]
  have hall : down.Holds need queue sent ([] ++ load) := hd
  rw [hrun]
  rcases downloadLoop_cases shahash clock outputFd (i := 0) hall hrecv hlen with
    ⟨hlast, down', out, seen, rest, hsplit, hloop, hswept⟩ | ⟨hno, hloop⟩
  · exact ⟨fun _ => hlast, fun _ => ⟨down', out, _, seen, rest, hsplit, hloop, hswept.swept⟩⟩
  · constructor
    · rintro ⟨down', out, visited, seen, rest, -, hsweep, -⟩
      rw [hloop] at hsweep
      cases hsweep
    · intro hlast
      exact absurd hlast hno

end

/-! ## One pass of the main loop -/

/-- **The sweeps survive removal** exactly if no upload is timed out, and the first download that
has ended, if there is one, is finished and its chunk the only one that is needed. -/
theorem sweeps_iff (fl : Rounding) (shahash : List UInt8 → Hash) (ticks : Nat → Visit)
    (clock : Nat → Int) (outputFd : OutFile) {up : Uploads} {down : Downloads}
    {l u need queue sent load : List (Nat × HashChunk)} (hup : up.Holds l u) (hwin : Windows l)
    (hdown : down.Holds need queue sent load) (hrecv : Receives load) :
    (∃ up' visited, sweepUploads fl ticks up = some (up', visited) ∧
      UploadsSwept ticks l u up up' visited) ∧
    (∃ down' outputFd' visited seen rest, load = seen ++ rest ∧
      sweepDownloads shahash clock down outputFd = some (down', outputFd', visited) ∧
      DownloadsSwept clock seen rest down down' visited) ↔
    fated (uploadFates ticks) .timedOut 0 l = [] ∧ LastChunk clock need 0 load := by
  rw [sweepUploads_iff fl ticks hup hwin, sweepDownloads_iff shahash clock outputFd hdown hrecv]

/-- An upload begun at time 0. -/
def uploadOf (addr : SockAddr) (w : Window) : HashChunk :=
  { createNode addr (Vector.replicate hashSize 5) 0 with congWin := some w }

/-- Two uploads. -/
def twoUploads (w w' : Window) : Uploads :=
  { heap := ⟨[some ⟨uploadOf ⟨0, 2⟩ w, some 1⟩, some ⟨uploadOf ⟨0, 3⟩ w', none⟩]⟩
    concurrUploadNum := 2
    maxUploadNum := 4
    uploadingList := some 0
    uploadedList := none }

/-- A download begun at time 0. -/
def downloadOf (r : RecvState) : HashChunk :=
  { createNode ⟨0, 2⟩ (Vector.replicate hashSize 5) 0 with recver := some r }

/-- One download, and the node of its chunk in the needlist. -/
def oneDownload (r : RecvState) : Downloads :=
  { heap := ⟨[some ⟨downloadOf r, none⟩,
      some ⟨createNode ⟨0, 1⟩ (Vector.replicate hashSize 5) 0, none⟩]⟩
    concurrDownloadNum := 1
    maxDownloadNum := 4
    howmanyFound := 1
    howmanyNeed := 1
    needlist := some 1
    getTosendQuene := none
    getSentList := none
    downloadingList := some 0 }

theorem twoUploads_holds (w w' : Window) :
    (twoUploads w w').Holds ([] ++ (0, uploadOf ⟨0, 2⟩ w) :: [(1, uploadOf ⟨0, 3⟩ w')]) [] :=
  ⟨⟨rfl, some 1, rfl, rfl, none, rfl, rfl⟩, rfl, by simp⟩

theorem oneDownload_holds (r : RecvState) : (oneDownload r).Holds
    [(1, createNode ⟨0, 1⟩ (Vector.replicate hashSize 5) 0)] [] [] [(0, downloadOf r)] :=
  ⟨⟨rfl, none, rfl, rfl⟩, rfl, rfl, ⟨rfl, none, rfl, rfl⟩, by simp [Heap.Apart]⟩

theorem windows_twoUploads {w w' : Window} (hw : w.Inv) (hw' : w'.Inv) :
    Windows [(0, uploadOf ⟨0, 2⟩ w), (1, uploadOf ⟨0, 3⟩ w')] :=
  List.forall_mem_cons.mpr ⟨⟨w, rfl, hw⟩, List.forall_mem_singleton.mpr ⟨w', rfl, hw'⟩⟩

/-- A chunk has been transferred. The sweep of its uploader removes that upload and goes on to
another one, which is left in the list; the sweep of its downloader, which needs no other chunk,
leaves nothing. -/
theorem finished_connections_swept :
    ∃ w es t, Window.Loaded (List.replicate chunkSize 0) chunkSize w ∧
      exec (Transfer.next .single) (Transfer.start w (Vector.replicate hashSize 5)) es = some t ∧
      t.sw.LPA = 512 ∧ t.rev.NPE = 513 ∧
      (∃ up' l' u', sweepUploads .single (fun _ => ⟨fun _ => 1, 1, 1⟩) (twoUploads t.sw w) =
          some (up', [0, 1]) ∧ up'.Holds l' u' ∧ l'.map Prod.fst = [1] ∧
        u'.map Prod.fst = [0] ∧ up'.concurrUploadNum = 1) ∧
      ∃ down' out visited, sweepDownloads (fun _ => Vector.replicate hashSize 5) (fun _ => 1)
          (oneDownload t.rev) .opened = some (down', out, visited) ∧
        down'.downloadingList = none := by
  have hlen : (List.replicate chunkSize (0 : UInt8)).length = chunkSize := List.length_replicate
  obtain ⟨w, hload⟩ := Window.exists_loaded (List.replicate chunkSize 0) chunkSize (by rw [hlen])
  obtain ⟨es, t, hrun, hlpa, hnpe, -⟩ :=
    Transfer.exists_transferred .single hload (Vector.replicate hashSize 5)
  have ht := Transfer.exec_inv hload hrun
  have hbytes : t.rev.recvBytesnum = chunkSize := (ht.safe hlen).complete.mpr hnpe
  -- what the visits find
  have hdone : uploadFates (fun _ => ⟨fun _ => 1, 1, 1⟩) 0 (uploadOf ⟨0, 2⟩ t.sw) = .finished := by
    have hall : decide (t.sw.LPA = t.sw.LPR - 1) = true := by
      rw [hlpa, ht.full]
      rfl
    rw [uploadFates, uploadFate]
    simp only [uploadOf, Option.any_some, hall, if_true]
  have hlive : uploadFates (fun _ => ⟨fun _ => 1, 1, 1⟩) 1 (uploadOf ⟨0, 3⟩ w) = .live := by
    have hopen : decide (w.LPA = w.LPR - 1) = false := by
      rw [hload.lpr_chunk, hload.fresh.1]
      rfl
    rw [uploadFates, uploadFate]
    simp only [uploadOf, Option.any_some, hopen]
    rfl
  have hlast : downloadFates (fun _ => 1) 0 (downloadOf t.rev) = .finished := by
    rw [downloadFates, downloadFate]
    simp only [downloadOf, Option.any_some, hbytes, decide_true, if_true]
  have hrecv : Receives [(0, downloadOf t.rev)] := List.forall_mem_singleton.mpr ⟨_, rfl⟩
  have hnone : fated (uploadFates fun _ => ⟨fun _ => 1, 1, 1⟩) .timedOut 0
      [(0, uploadOf ⟨0, 2⟩ t.sw), (1, uploadOf ⟨0, 3⟩ w)] = [] := by
    rw [fated_cons, hdone, fated_cons, hlive]
    rfl
  have hend : LastChunk (fun _ => 1) [(1, createNode ⟨0, 1⟩ (Vector.replicate hashSize 5) 0)] 0
      [(0, downloadOf t.rev)] :=
    (lastChunk_ended (by rw [hlast]; decide)).mpr ⟨hlast, rfl⟩
  obtain ⟨⟨up', visited, hup, hswept⟩, down', out, visited', seen, rest, hsplit, hdown, hgone⟩ :=
    (sweeps_iff .single (fun _ => Vector.replicate hashSize 5) (fun _ => ⟨fun _ => 1, 1, 1⟩)
      (fun _ => 1) .opened (twoUploads_holds t.sw w) (windows_twoUploads ht.window hload.inv)
      (oneDownload_holds t.rev) hrecv).mpr ⟨hnone, hend⟩
  obtain ⟨l', u', hlists, hl', hu'⟩ := hswept.lists
  rw [List.nil_append, fated_cons, hdone, fated_cons, hlive] at hl' hu'
  have hslots := hswept.slots
  have hseen := hswept.visited
  rw [List.nil_append] at hslots hseen
  rw [hnone, fated_cons, hdone, fated_cons, hlive] at hslots
  have hboth : sweepUploads .single (fun _ => ⟨fun _ => 1, 1, 1⟩) (twoUploads t.sw w) =
      some (up', [0, 1]) := by
    rw [hup, hseen]
    rfl
  refine ⟨w, es, t, hload, hrun, hlpa, hnpe, ⟨up', l', u', hboth, hlists, hl', hu', hslots⟩,
    down', out, visited', hdown, ?_⟩
  rcases hgone.ending with ⟨rfl, load, hload', hleft⟩ | ⟨-, -, -, hnil⟩
  · rw [List.append_nil] at hsplit
    rw [← hsplit, fated_cons, hlast] at hleft
    have hnil : load = [] := List.map_eq_nil_iff.mp hleft
    rw [hload'.start, hnil]
    rfl
  · exact hnil

/-- At time 20 the first upload and the download are given up, and their nodes are read after they
were freed. -/
theorem silent_peers_read_after_free :
    ∃ w, Window.Loaded (List.replicate chunkSize 0) chunkSize w ∧
      sweepUploads .single (fun _ => ⟨fun _ => 20, 20, 20⟩) (twoUploads w w) = none ∧
      sweepDownloads (fun _ => Vector.replicate hashSize 0) (fun _ => 20)
        (oneDownload (createRecver (Vector.replicate hashSize 5))) .opened = none := by
  obtain ⟨w, hload⟩ := Window.exists_loaded (List.replicate chunkSize 0) chunkSize
    (by rw [List.length_replicate])
  have hlpr := hload.lpr_chunk
  obtain ⟨hlpa, -, -⟩ := hload.fresh
  have hlate : 8 * timeoutSec < (20 : Int) - 0 := by decide
  have hvisit : visitUpload .single ⟨fun _ => 20, 20, 20⟩ 0 (twoUploads w w) = none :=
    visitUpload_timedOut (twoUploads_holds w w) rfl hload.inv (by omega) hlate
  refine ⟨w, hload, ?_, rfl⟩
  rw [sweepUploads]
  show (visitUpload .single _ 0 (twoUploads w w)).bind _ = none
  rw [hvisit]
  rfl

end Mem

end P2P
