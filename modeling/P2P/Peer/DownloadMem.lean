import P2P.Peer.Download
import P2P.Peer.Pointers

/-!
# The download side in memory

`Download_conn` with its lists in memory and the operations of `peer.c` that end a download.
`Mem.Downloads.Holds` is the well-formedness of the four lists, `Mem.Downloads.conn` the state of
`P2P.Peer.Download` they stand for.

* `Mem.finishOneDownload_spec`, `Mem.completeMydownload_spec`,
  `Mem.checkRecvdataTimeout_expired`: each operation deletes its nodes, and is the one of the
  same name on the contents of the lists.
-/

namespace P2P

open Lib

namespace Mem

/-- `Download_conn`, with its lists in memory. -/
structure Downloads where
  heap : Heap HashChunk
  concurrDownloadNum : Int
  maxDownloadNum : Int
  howmanyFound : Int
  howmanyNeed : Int
  needlist : Option Nat
  getTosendQuene : Option Nat
  getSentList : Option Nat
  downloadingList : Option Nat

/-- The four lists in memory, with no node in two of them. -/
structure Downloads.Holds (down : Downloads) (need queue sent load : List (Nat × HashChunk)) :
    Prop where
  needlist : down.heap.IsList down.needlist need
  getTosendQuene : down.heap.IsList down.getTosendQuene queue
  getSentList : down.heap.IsList down.getSentList sent
  downloadingList : down.heap.IsList down.downloadingList load
  apart : [need, queue, sent, load].Pairwise Heap.Apart

/-- The download side with the lists as they are in `P2P.Peer.Download`. -/
def Downloads.conn (down : Downloads) (need queue sent load : List (Nat × HashChunk)) :
    DownloadConn :=
  { concurrDownloadNum := down.concurrDownloadNum, maxDownloadNum := down.maxDownloadNum,
    howmanyFound := down.howmanyFound, howmanyNeed := down.howmanyNeed,
    needlist := contents need, getTosendQuene := contents queue, getSentList := contents sent,
    downloadingList := contents load }

/-! ## The operations -/

def finishOneDownload (todel : Nat) (down : Downloads) : Option Downloads :=
  (down.heap.read todel).bind fun node =>
    (deleteNodeByHash down.heap down.needlist node.data.hash).bind fun (heap, needlist) =>
      (deleteNode heap down.downloadingList todel).map fun (heap, downloading) =>
        { down with
          heap := heap
          needlist := needlist
          downloadingList := downloading
          concurrDownloadNum := down.concurrDownloadNum - 1 }

def completeMydownload (down : Downloads) : Option Downloads :=
  (clearHashchunkList down.heap down.getTosendQuene).bind fun (heap, _) =>
    (clearHashchunkList heap down.getSentList).bind fun (heap, _) =>
      (clearHashchunkList heap down.downloadingList).map fun (heap, _) =>
        { down with
          heap := heap
          maxDownloadNum := 0
          getTosendQuene := none
          getSentList := none
          downloadingList := none }

def checkRecvdataTimeout (now : Int) (curr : Nat) (down : Downloads) :
    Option (Downloads × Int) :=
  (down.heap.read curr).bind fun node =>
    if node.data.expired now then
      (deleteNode down.heap down.downloadingList curr).map fun (heap, downloading) =>
        ({ down with
            heap := heap
            downloadingList := downloading
            howmanyFound := down.howmanyFound - 1
            concurrDownloadNum := down.concurrDownloadNum - 1 }, 1)
    else some (down, 0)

/-! ## What they do -/

variable {down down' : Downloads} {a b : Nat} {x y : HashChunk} {now : Int}
  {need queue sent load pre post np nq : List (Nat × HashChunk)}

theorem pairwise_apart_iff : [need, queue, sent, load].Pairwise Heap.Apart ↔
    (Heap.Apart need queue ∧ Heap.Apart need sent ∧ Heap.Apart need load) ∧
      (Heap.Apart queue sent ∧ Heap.Apart queue load) ∧ Heap.Apart sent load := by
  simp [List.pairwise_cons]

theorem Downloads.Holds.delete_load (hd : down.Holds need queue sent (pre ++ (a, x) :: post)) :
    ∃ heap p, deleteNode down.heap down.downloadingList a = some (heap, p) ∧
      Downloads.Holds { down with heap := heap, downloadingList := p } need queue sent
        (pre ++ post) ∧ heap.read a = none := by
  obtain ⟨heap, p, hrun, hdel⟩ := deleteNode_spec hd.downloadingList
  obtain ⟨⟨hnq, hns, hnl⟩, ⟨hqs, hql⟩, hsl⟩ := pairwise_apart_iff.mp hd.apart
  have hsub := removed_subset pre a x post
  refine ⟨heap, p, hrun, ⟨?_, ?_, ?_, hdel.list, ?_⟩, hdel.freed⟩
  · exact hd.needlist.frame_of_apart hnl.symm hdel.outside
  · exact hd.getTosendQuene.frame_of_apart hql.symm hdel.outside
  · exact hd.getSentList.frame_of_apart hsl.symm hdel.outside
  · exact pairwise_apart_iff.mpr ⟨⟨hnq, hns, hnl.of_subset (List.Subset.refl _) hsub⟩,
      ⟨hqs, hql.of_subset (List.Subset.refl _) hsub⟩, hsl.of_subset (List.Subset.refl _) hsub⟩

theorem Downloads.Holds.delete_need (hd : down.Holds (np ++ (b, y) :: nq) queue sent load)
    (hy : y.hash = x.hash) (hnp : ∀ e ∈ np, e.2.hash ≠ x.hash) :
    ∃ heap p, deleteNodeByHash down.heap down.needlist x.hash = some (heap, p) ∧
      Downloads.Holds { down with heap := heap, needlist := p } (np ++ nq) queue sent load := by
  obtain ⟨heap, p, hrun, hdel⟩ := deleteNodeByHash_spec hd.needlist hy hnp
  obtain ⟨⟨hnq, hns, hnl⟩, hrest⟩ := pairwise_apart_iff.mp hd.apart
  have hsub := removed_subset np b y nq
  refine ⟨heap, p, hrun, ⟨hdel.list, ?_, ?_, ?_, ?_⟩⟩
  · exact hd.getTosendQuene.frame_of_apart hnq hdel.outside
  · exact hd.getSentList.frame_of_apart hns hdel.outside
  · exact hd.downloadingList.frame_of_apart hnl hdel.outside
  · exact pairwise_apart_iff.mpr ⟨⟨hnq.of_subset hsub (List.Subset.refl _),
      hns.of_subset hsub (List.Subset.refl _), hnl.of_subset hsub (List.Subset.refl _)⟩, hrest⟩

/-- **A download finished**, for a chunk that is needed. -/
theorem finishOneDownload_spec
    (hd : down.Holds (np ++ (b, y) :: nq) queue sent (pre ++ (a, x) :: post))
    (hy : y.hash = x.hash) (hnp : ∀ e ∈ np, e.2.hash ≠ x.hash) :
    ∃ down', finishOneDownload a down = some down' ∧
      down'.Holds (np ++ nq) queue sent (pre ++ post) ∧ down'.heap.read a = none ∧
      down'.concurrDownloadNum = down.concurrDownloadNum - 1 ∧
      down'.howmanyFound = down.howmanyFound ∧
      P2P.finishOneDownload (contents pre).length
          (down.conn (np ++ (b, y) :: nq) queue sent (pre ++ (a, x) :: post)) =
        some (down'.conn (np ++ nq) queue sent (pre ++ post)) := by
  obtain ⟨heap₁, p₁, hneed, hd₁⟩ := hd.delete_need hy hnp
  obtain ⟨heap₂, p₂, hload, hd₂, hfreed⟩ := hd₁.delete_load
  refine ⟨{ down with
      heap := heap₂
      needlist := p₁
      downloadingList := p₂
      concurrDownloadNum := down.concurrDownloadNum - 1 }, ?_,
    ⟨hd₂.needlist, hd₂.getTosendQuene, hd₂.getSentList, hd₂.downloadingList, hd₂.apart⟩, hfreed,
    rfl, rfl, ?_⟩
  · rw [finishOneDownload, hd.downloadingList.next, Option.bind_some]
    simp only [hneed, Option.bind_some, hload, Option.map_some]
  · rw [P2P.finishOneDownload, Downloads.conn]
    simp only [contents_getElem?, Option.bind_some, deleteNodeByHash_contents hy hnp,
      Option.map_some, deleteNode_contents]
    rfl

theorem finishOneDownload_none (hd : down.Holds need queue sent (pre ++ (a, x) :: post))
    (hno : ∀ e ∈ need, e.2.hash ≠ x.hash) : finishOneDownload a down = none := by
  rw [finishOneDownload, hd.downloadingList.next, Option.bind_some,
    deleteNodeByHash_none hd.needlist hno, Option.bind_none]

/-- **The GET is complete**: the nodes of three lists are freed. -/
theorem completeMydownload_spec (hd : down.Holds need queue sent load) :
    ∃ down', completeMydownload down = some down' ∧ down'.Holds need [] [] [] ∧
      (∀ e ∈ load, down'.heap.read e.1 = none) ∧
      (∀ b, down.heap.read b = none → down'.heap.read b = none) ∧
      down'.conn need [] [] [] = P2P.completeMydownload (down.conn need queue sent load) := by
  obtain ⟨⟨hnq, hns, hnl⟩, ⟨hqs, hql⟩, hsl⟩ := pairwise_apart_iff.mp hd.apart
  obtain ⟨heap₁, hrun₁, hclear₁⟩ := clearHashchunkList_spec hd.getTosendQuene
  have hsent₁ := hd.getSentList.frame_of_apart hqs hclear₁.frame
  have hload₁ := hd.downloadingList.frame_of_apart hql hclear₁.frame
  obtain ⟨heap₂, hrun₂, hclear₂⟩ := clearHashchunkList_spec hsent₁
  have hload₂ := hload₁.frame_of_apart hsl hclear₂.frame
  obtain ⟨heap₃, hrun₃, hclear₃⟩ := clearHashchunkList_spec hload₂
  have hneed := ((hd.needlist.frame_of_apart hnq.symm hclear₁.frame).frame_of_apart hns.symm
    hclear₂.frame).frame_of_apart hnl.symm hclear₃.frame
  refine ⟨{ down with
      heap := heap₃
      maxDownloadNum := 0
      getTosendQuene := none
      getSentList := none
      downloadingList := none }, ?_, ⟨hneed, rfl, rfl, rfl, ?_⟩, hclear₃.freed, fun b hb => ?_, rfl⟩
  · simp only [completeMydownload, hrun₁, hrun₂, hrun₃, Option.bind_some, Option.map_some]
  · simp [Heap.Apart]
  · exact hclear₃.read_none (hclear₂.read_none (hclear₁.read_none hb))

theorem checkRecvdataTimeout_expired (hd : down.Holds need queue sent (pre ++ (a, x) :: post))
    (hlate : x.expired now) :
    ∃ down', checkRecvdataTimeout now a down = some (down', 1) ∧
      down'.Holds need queue sent (pre ++ post) ∧ down'.heap.read a = none ∧
      P2P.checkRecvdataTimeout now (contents pre).length
          (down.conn need queue sent (pre ++ (a, x) :: post)) =
        some (down'.conn need queue sent (pre ++ post), 1) := by
  obtain ⟨heap, p, hload, hd', hfreed⟩ := hd.delete_load
  refine ⟨{ down with
      heap := heap
      downloadingList := p
      howmanyFound := down.howmanyFound - 1
      concurrDownloadNum := down.concurrDownloadNum - 1 }, ?_,
    ⟨hd'.needlist, hd'.getTosendQuene, hd'.getSentList, hd'.downloadingList, hd'.apart⟩, hfreed, ?_⟩
  · rw [checkRecvdataTimeout, hd.downloadingList.next, Option.bind_some]
    simp only [if_pos hlate, hload, Option.map_some]
  · rw [P2P.checkRecvdataTimeout, Downloads.conn]
    simp only [contents_getElem?, Option.map_some, if_pos hlate, deleteNode_contents]
    rfl

theorem checkRecvdataTimeout_live (hd : down.Holds need queue sent (pre ++ (a, x) :: post))
    (hlate : ¬ x.expired now) :
    checkRecvdataTimeout now a down = some (down, 0) ∧
      P2P.checkRecvdataTimeout now (contents pre).length
          (down.conn need queue sent (pre ++ (a, x) :: post)) =
        some (down.conn need queue sent (pre ++ (a, x) :: post), 0) := by
  constructor
  · rw [checkRecvdataTimeout, hd.downloadingList.next, Option.bind_some, if_neg hlate]
  · rw [P2P.checkRecvdataTimeout, Downloads.conn]
    simp only [contents_getElem?, Option.map_some, if_neg hlate]

end Mem

end P2P
