import P2P.Peer.DownloadHeap
import P2P.Peer.DownloadSweep

/-!
# The download sweep as a run

What the download sweep does to the memory, in the terms of `P2P.Peer.DownloadHeap`. A sweep that
survives changes nothing, or finishes the one chunk that was needed (`Mem.sweepDownloads_exec`).
-/

namespace P2P

open Lib

namespace Mem

variable {down down' : Downloads} {d : DownloadConn} {a b : Nat} {x y : HashChunk}
  {r : RecvState} {now : Int} {outputFd outputFd' : OutFile} {shahash : List UInt8 → Hash}
  {need queue sent load pre post np nq : List (Nat × HashChunk)}

/-- **A download finished**: two nodes are freed. -/
theorem finishOneDownload_owns
    (hs : down.Owns (np ++ (b, y) :: nq) queue sent (pre ++ (a, x) :: post))
    (hy : y.hash = x.hash) (hnp : ∀ e ∈ np, e.2.hash ≠ x.hash) :
    ∃ down', finishOneDownload a down = some down' ∧
      down'.Owns (np ++ nq) queue sent (pre ++ post) ∧
      P2P.finishOneDownload (contents pre).length
          (down.conn (np ++ (b, y) :: nq) queue sent (pre ++ (a, x) :: post)) =
        some (down'.conn (np ++ nq) queue sent (pre ++ post)) := by
  obtain ⟨heap₁, p₁, hneed, hdel₁⟩ := deleteNodeByHash_spec hs.holds.needlist hy hnp
  have hs₁ : Downloads.Owns { down with
      heap := heap₁
      needlist := p₁ } (np ++ nq) queue sent (pre ++ (a, x) :: post) := by
    have := lists_deleted (i := .needlist) hs rfl hdel₁
    rwa [update_needlist, start_needlist] at this
  obtain ⟨heap₂, p₂, hload, hdel₂⟩ := deleteNode_spec hs₁.holds.downloadingList
  have hs₂ : Downloads.Owns { down with
      heap := heap₂
      needlist := p₁
      downloadingList := p₂
      concurrDownloadNum := down.concurrDownloadNum - 1 } (np ++ nq) queue sent (pre ++ post) := by
    have := lists_deleted (i := .downloadingList) hs₁ rfl hdel₂
    rwa [update_downloadingList, start_downloadingList] at this
  refine ⟨_, ?_, hs₂, ?_⟩
  · rw [finishOneDownload, hs.holds.downloadingList.next, Option.bind_some]
    simp only [hneed, Option.bind_some, hload, Option.map_some]
  · rw [P2P.finishOneDownload, Downloads.conn]
    simp only [contents_getElem?, Option.bind_some, deleteNodeByHash_contents hy hnp,
      Option.map_some, deleteNode_contents]
    rfl

/-- **The GET is complete**: the nodes of three lists are freed. -/
theorem completeMydownload_owns (hs : down.Owns need queue sent load) :
    ∃ down', completeMydownload down = some down' ∧ down'.Owns need [] [] [] ∧
      down'.conn need [] [] [] = P2P.completeMydownload (down.conn need queue sent load) := by
  obtain ⟨h₁, hrun₁, hc₁⟩ := clearHashchunkList_spec hs.holds.getTosendQuene
  have hs₁ := lists_cleared DownList.getTosendQuene hs rfl hc₁
  rw [update_getTosendQuene, start_getTosendQuene] at hs₁
  have hs₁ : Downloads.Owns { down with
      heap := h₁
      getTosendQuene := none } need [] sent load := hs₁
  obtain ⟨h₂, hrun₂, hc₂⟩ := clearHashchunkList_spec hs₁.holds.getSentList
  have hs₂ := lists_cleared DownList.getSentList hs₁ rfl hc₂
  rw [update_getSentList, start_getSentList] at hs₂
  have hs₂ : Downloads.Owns { down with
      heap := h₂
      getTosendQuene := none
      getSentList := none } need [] [] load := hs₂
  obtain ⟨h₃, hrun₃, hc₃⟩ := clearHashchunkList_spec hs₂.holds.downloadingList
  have hs₃ := lists_cleared DownList.downloadingList hs₂ rfl hc₃
  rw [update_downloadingList, start_downloadingList] at hs₃
  refine ⟨{ down with
      heap := h₃
      maxDownloadNum := 0
      getTosendQuene := none
      getSentList := none
      downloadingList := none }, ?_, hs₃, rfl⟩
  simp only at hrun₂ hrun₃
  simp only [completeMydownload, hrun₁, hrun₂, hrun₃, Option.bind_some, Option.map_some]

/-- **The visit of the last chunk** is the sweep of `P2P.Peer.Disk` there. -/
theorem visitDownload_sweep (hs : down.Owns [(b, y)] queue sent (pre ++ (a, x) :: post))
    (hr : x.recver = some r) (hfin : r.recvBytesnum = chunkSize) (hy : y.hash = x.hash)
    {next : Option Nat}
    (h : visitDownload shahash now a down outputFd = some (down', outputFd', next))
    {me : Mydownload} (hconn : me.conn = down.conn [(b, y)] queue sent (pre ++ (a, x) :: post))
    (hout : me.outputFd = outputFd) :
    next = none ∧ ∃ me', me.sweep shahash (contents pre).length = some me' ∧
      down'.Represents me'.conn ∧ me'.outputFd = outputFd' := by
  have hneed : down.Owns ([] ++ (b, y) :: []) queue sent (pre ++ (a, x) :: post) := hs
  obtain ⟨down₁, hfinish, hs₁, hconn₁⟩ := finishOneDownload_owns hneed hy (by simp)
  obtain ⟨down₂, hcomplete, hs₂, hconn₂⟩ := completeMydownload_owns hs₁
  have hempty : down₁.needlist = none := hs₁.holds.needlist
  -- the chunk is reaped, and nothing is left
  rw [visitDownload, hs.holds.downloadingList.next, Option.bind_some] at h
  simp only [hr, Option.bind_some, if_pos hfin] at h
  rw [hfinish, Option.bind_some, if_pos hempty, hcomplete, Option.map_some] at h
  cases h
  refine ⟨rfl, { me with
      conn := down'.conn [] [] [] []
      outputFd := afterReap shahash r x.chunkid me.outputFd
      givenUp := ((firstEntry me.conn.needlist x.hash).map HashChunk.entry).toList ++ me.givenUp },
    ?_, ⟨[], [], [], [], hs₂, rfl⟩, congrArg (afterReap shahash r x.chunkid) hout⟩
  have hnode : me.conn.downloadingList[(contents pre).length]? = some x := by
    rw [hconn]
    exact contents_getElem? pre a x post
  have hlists : finishDownload (contents pre).length me.conn = some (down'.conn [] [] [] []) := by
    simp only [List.nil_append] at hconn₁ hconn₂
    rw [hconn, finishDownload, hconn₁, Option.map_some, hconn₂]
    exact congrArg some (if_pos rfl)
  rw [Mydownload.sweep, hnode, Option.bind_some, hr, Option.bind_some, if_pos hfin]
  exact congrArg (Option.map _) hlists

/-- **The loop of the download sweep**, if it survives: nothing has changed, or the chunk that was
needed is finished. `pre` are the nodes visited before, which are live. -/
theorem downloadLoop_exec (config : Config) (clock : Nat → Int) {me : Mydownload}
    (hout : me.outputFd = outputFd) {todo : List (Nat × HashChunk)} :
    ∀ {pre : List (Nat × HashChunk)} {n i : Nat} {visited : List Nat},
      down.Owns need queue sent (pre ++ todo) →
      me.conn = down.conn need queue sent (pre ++ todo) →
      downloadLoop shahash clock n i (todo.head?.map Prod.fst) down outputFd =
        some (down', outputFd', visited) →
      (down' = down ∧ outputFd' = outputFd) ∨
        need.length = 1 ∧ ∃ k me', me.next shahash config (.finish k) = some me' ∧
          down'.Represents me'.conn ∧ me'.outputFd = outputFd' := by
  induction todo with
  | nil =>
    intro pre n i visited hs hconn h
    cases n with
    | zero => cases h
    | succ n =>
      cases h
      exact .inl ⟨rfl, rfl⟩
  | cons e todo ih =>
    intro pre n i visited hs hconn h
    cases n with
    | zero => cases h
    | succ n =>
      obtain ⟨a, x⟩ := e
      simp only [List.head?_cons, Option.map_some, downloadLoop, Option.bind_eq_some_iff,
        Option.map_eq_some_iff, Prod.exists] at h
      obtain ⟨down₁, out₁, next, hvisit, down₂, out₂, seen, hrest, h⟩ := h
      cases h
      have hd := hs.holds
      obtain ⟨r, hr⟩ : ∃ r, x.recver = some r := by
        rw [visitDownload, hd.downloadingList.next, Option.bind_some, Option.bind_eq_some_iff]
          at hvisit
        obtain ⟨r, hr, -⟩ := hvisit
        exact ⟨r, hr⟩
      rcases downloadFate_cases (clock i) hr with ⟨-, hfin⟩ | ⟨-, hopen, hlate⟩ |
        ⟨-, hopen, hlate⟩
      · -- finished: its chunk is the only one needed
        by_cases hneed : need.map (fun e => e.2.hash) = [x.hash]
        · obtain ⟨⟨b, y⟩, rfl, hy⟩ := List.map_eq_singleton_iff.mp hneed
          obtain ⟨rfl, me', hsweep, hme', hout'⟩ :=
            visitDownload_sweep hs hr hfin hy hvisit hconn hout
          cases n with
          | zero => cases hrest
          | succ n =>
            cases hrest
            exact .inr ⟨rfl, _, me', hsweep, hme', hout'⟩
        · rw [visitDownload_notLast shahash outputFd hd hr hfin hneed] at hvisit
          cases hvisit
      · rw [visitDownload_timedOut shahash outputFd hd hr hopen hlate] at hvisit
        cases hvisit
      · rw [visitDownload_live shahash outputFd hd hr hopen hlate, Option.some.injEq,
          Prod.mk.injEq, Prod.mk.injEq] at hvisit
        obtain ⟨rfl, rfl, rfl⟩ := hvisit
        rw [List.append_cons] at hs hconn
        exact ih hs hconn hrest

/-- **A sweep that survives** changes nothing, or finishes the one chunk that was needed. -/
theorem sweepDownloads_exec (config : Config) (clock : Nat → Int) {me : Mydownload}
    {visited : List Nat} (hd : down.Represents me.conn) (hout : me.outputFd = outputFd)
    (h : sweepDownloads shahash clock down outputFd = some (down', outputFd', visited)) :
    (down' = down ∧ outputFd' = outputFd) ∨
      me.conn.needlist.length = 1 ∧ ∃ k me', me.next shahash config (.finish k) = some me' ∧
        down'.Represents me'.conn ∧ me'.outputFd = outputFd' := by
  obtain ⟨need, queue, sent, load, hs, hconn⟩ := hd
  have hall : down.Owns need queue sent ([] ++ load) := hs
  have hneed : me.conn.needlist.length = need.length := by
    rw [← hconn]
    exact List.length_map _
  rw [sweepDownloads, hs.holds.downloadingList.start] at h
  rw [hneed]
  exact downloadLoop_exec config clock hout hall hconn.symm h

end Mem

end P2P
