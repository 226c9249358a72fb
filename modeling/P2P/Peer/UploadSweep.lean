import P2P.Peer.Pointers
import P2P.Peer.UploadRuns

/-!
# The upload sweep in memory

One pass of the main loop over `uploading_list`, with the pointers it follows. The loop goes on
from the node it has just visited; where `check_recvack_timeout` has deleted that node its `next`
is read from memory that was freed, and the sweep is `none`.

`Mem.sweepUploads_iff`: every node is visited once and ends in its list, unless one of them is
timed out. `Mem.visitUpload_live` and `Mem.visitUpload_finished` also say that a visit is
`sweepUpload` on the contents of the lists.
-/

namespace P2P

open Lib

namespace Mem

/-- `Upload_conn`, with its lists in memory. -/
structure Uploads where
  heap : Heap HashChunk
  concurrUploadNum : Int
  maxUploadNum : Int
  uploadingList : Option Nat
  uploadedList : Option Nat

/-- The clock while one node is visited: for the packets sent and for the two timers. -/
structure Visit where
  time : Nat → Int
  now₁ : Int
  now₂ : Int

def abortUpload (todel : Nat) (up : Uploads) : Option Uploads :=
  (deleteNode up.heap up.uploadingList todel).map fun (heap, uploading) =>
    { up with
      heap := heap
      uploadingList := uploading
      concurrUploadNum := up.concurrUploadNum - 1 }

def checkRecvackTimeout (now : Int) (curr : Nat) (up : Uploads) : Option (Uploads × Int) :=
  (up.heap.read curr).bind fun node =>
    if 8 * timeoutSec < now - node.data.timestamp then (abortUpload curr up).map fun up => (up, 1)
    else some (up, 0)

/-- What a function does to `curr->congWin`. -/
def storeWindow (heap : Heap HashChunk) (curr : Nat) (w : Window) : Option (Heap HashChunk) :=
  heap.update curr fun c => ⟨{ c.data with congWin := some w }, c.next⟩

section
variable (fl : Rounding)

/-- The body of the loop: the new state and the node the loop goes on with. -/
def visitUpload (clock : Visit) (currupload : Nat) (up : Uploads) :
    Option (Uploads × Option Nat) :=
  (up.heap.read currupload).bind fun node =>
    node.data.congWin.bind fun w =>
      (if w.LPS < w.LPR - 1 then (windowSender clock.time w).map (·.1) else some w).bind fun w =>
        (storeWindow up.heap currupload w).bind fun heap =>
          if w.LPA = w.LPR - 1 then
            -- the next node is read before this one is moved
            (moveNode heap up.uploadedList up.uploadingList currupload).map
              fun (heap, uploaded, uploading) =>
                ({ up with
                    heap := heap
                    uploadedList := uploaded
                    uploadingList := uploading
                    concurrUploadNum := up.concurrUploadNum - 1 }, node.next)
          else
            (checkDatapackTimeout fl clock.now₁ w).bind fun (w, _) =>
              (storeWindow heap currupload w).bind fun heap =>
                (checkRecvackTimeout clock.now₂ currupload { up with heap := heap }).bind
                  fun (up, _) => (up.heap.read currupload).map fun node => (up, node.next)

/-- The loop from visit `i` on, with the nodes visited. -/
def uploadLoop (clock : Nat → Visit) :
    Nat → Nat → Option Nat → Uploads → Option (Uploads × List Nat)
  | 0, _, _, _ => none
  | _ + 1, _, none, up => some (up, [])
  | n + 1, i, some currupload, up =>
    (visitUpload fl (clock i) currupload up).bind fun (up, next) =>
      (uploadLoop clock n (i + 1) next up).map fun (up, visited) => (up, currupload :: visited)

/-- The upload sweep of `peer_run`. -/
def sweepUploads (clock : Nat → Visit) (up : Uploads) : Option (Uploads × List Nat) :=
  uploadLoop fl clock (up.heap.size + 1) 0 up.uploadingList up

end

/-! ## What is to happen -/

/-- What a visit finds a connection to be. -/
inductive Fate
  | finished
  | timedOut
  | live
  deriving DecidableEq

def uploadFate (now : Int) (x : HashChunk) : Fate :=
  if x.congWin.any fun w => w.LPA = w.LPR - 1 then .finished
  else if 8 * timeoutSec < now - x.timestamp then .timedOut
  else .live

def uploadFates (clock : Nat → Visit) (i : Nat) : HashChunk → Fate := uploadFate (clock i).now₂

/-- The nodes with one fate, visited from `i` on. -/
def fated (fate : Nat → HashChunk → Fate) (f : Fate) (i : Nat) (l : List (Nat × HashChunk)) :
    List Nat :=
  ((l.zipIdx i).filter fun e => fate e.2 e.1.2 = f).map fun e => e.1.1

/-- The two lists in memory, with no node in both. -/
structure Uploads.Holds (up : Uploads) (l u : List (Nat × HashChunk)) : Prop where
  uploading : up.heap.IsList up.uploadingList l
  uploaded : up.heap.IsList up.uploadedList u
  apart : ∀ e ∈ u, e.1 ∉ l.map Prod.fst

/-- Every upload has a window, in order. -/
def Windows (l : List (Nat × HashChunk)) : Prop :=
  ∀ e ∈ l, ∃ w, e.2.congWin = some w ∧ w.Inv

/-- The upload side with the lists as they are in `P2P.Peer.Upload`. -/
def Uploads.conn (up : Uploads) (l u : List (Nat × HashChunk)) : UploadConn :=
  { concurrUploadNum := up.concurrUploadNum, maxUploadNum := up.maxUploadNum,
    uploadingList := contents l, uploadedList := contents u }

/-- **What an upload sweep is to do**: every node is visited once, the finished ones move to
`uploaded_list`, those timed out are freed, and each of them gives its slot back. -/
structure UploadsSwept (clock : Nat → Visit) (l u : List (Nat × HashChunk)) (up up' : Uploads)
    (visited : List Nat) : Prop where
  visited : visited = l.map Prod.fst
  lists : ∃ l' u', up'.Holds l' u' ∧
    l'.map Prod.fst = fated (uploadFates clock) .live 0 l ∧
    u'.map Prod.fst =
      (fated (uploadFates clock) .finished 0 l).reverse ++ u.map Prod.fst
  freed : ∀ a ∈ fated (uploadFates clock) .timedOut 0 l, up'.heap.read a = none
  slots : up'.concurrUploadNum = up.concurrUploadNum -
    ((fated (uploadFates clock) .finished 0 l).length +
      (fated (uploadFates clock) .timedOut 0 l).length)

/-! ## One visit -/

section
variable {fl : Rounding} {clock : Visit} {up up' : Uploads} {a : Nat} {x : HashChunk} {w : Window}
  {l u pre post : List (Nat × HashChunk)}

theorem fated_cons (fate : Nat → HashChunk → Fate) (f : Fate) (i : Nat) (e : Nat × HashChunk)
    (l : List (Nat × HashChunk)) : fated fate f i (e :: l) =
      if fate i e.2 = f then e.1 :: fated fate f (i + 1) l else fated fate f (i + 1) l := by
  unfold fated
  rw [List.zipIdx_cons, List.filter_cons]
  by_cases h : fate i e.2 = f
  · rw [if_pos (by simpa using h), if_pos h, List.map_cons]
  · rw [if_neg (by simpa using h), if_neg h]

theorem storeWindow_spec (hup : up.Holds (pre ++ (a, x) :: post) u) (w : Window) :
    ∃ heap, storeWindow up.heap a w = some heap ∧
      Uploads.Holds { up with heap := heap }
        (pre ++ (a, { x with congWin := some w }) :: post) u := by
  obtain ⟨heap, hrun⟩ := Heap.exists_update hup.uploading.next
    fun c => ⟨{ c.data with congWin := some w }, c.next⟩
  have hapart := hup.apart
  refine ⟨heap, hrun, ?_, hup.uploaded.frame (Heap.update_frame hrun fun hmem => ?_), ?_⟩
  · exact hup.uploading.update_data (g := fun y => { y with congWin := some w }) hrun
  · obtain ⟨e, he, heq⟩ := List.mem_map.mp hmem
    exact hapart e he (by rw [heq]; simp)
  · simpa only [List.map_append, List.map_cons] using hapart

theorem visitUpload_finished (fl : Rounding) (clock : Visit)
    (hup : up.Holds (pre ++ (a, x) :: post) u) (hw : x.congWin = some w) (hinv : w.Inv)
    (hfin : w.LPA = w.LPR - 1) :
    ∃ up' x', visitUpload fl clock a up = some (up', post.head?.map Prod.fst) ∧
      up'.Holds (pre ++ post) ((a, x') :: u) ∧
      up'.concurrUploadNum = up.concurrUploadNum - 1 ∧
      sweepUpload fl clock.time clock.now₁ clock.now₂ (contents pre).length
        (up.conn (pre ++ (a, x) :: post) u) = some (up'.conn (pre ++ post) ((a, x') :: u)) := by
  obtain ⟨w₁, hsend, -, hlpa, hlpr⟩ := UploadConn.exists_sent fl clock.time hinv
  obtain ⟨heap₁, hstore, hup₁⟩ := storeWindow_spec hup w₁
  obtain ⟨heap₂, p', hmove, hmoved⟩ := moveNode_spec hup₁.uploading hup₁.uploaded hup₁.apart
  have hfin₁ : w₁.LPA = w₁.LPR - 1 := by omega
  refine ⟨{ up with
      heap := heap₂
      uploadedList := some a
      uploadingList := p'
      concurrUploadNum := up.concurrUploadNum - 1 }, { x with congWin := some w₁ }, ?_,
    ⟨hmoved.source, hmoved.dest, ?_⟩, rfl, ?_⟩
  · rw [visitUpload, hup.uploading.next, Option.bind_some]
    simp only [hw, hsend, hstore, Option.bind_some, if_pos hfin₁, hmove, Option.map_some]
  · intro e he hmem
    rcases List.mem_cons.mp he with rfl | he
    · obtain ⟨e', he', heq⟩ := List.mem_map.mp hmem
      exact hup.uploading.ne_of_mem he' heq
    · exact hup.apart e he (List.map_subset Prod.fst (removed_subset pre a x post) hmem)
  · rw [sweepUpload, Uploads.conn]
    simp only [contents_getElem?, Option.bind_some, hw, hsend, if_pos hfin₁, contents_set,
      moveNode_contents, Option.map_some]
    rfl

theorem visitUpload_open (fl : Rounding) (clock : Visit) (hup : up.Holds (pre ++ (a, x) :: post) u)
    (hw : x.congWin = some w) (hinv : w.Inv) (hopen : w.LPA ≠ w.LPR - 1) :
    ∃ heap w', visitUpload fl clock a up =
        (checkRecvackTimeout clock.now₂ a { up with heap := heap }).bind
          (fun r => (r.1.heap.read a).map fun node => (r.1, node.next)) ∧
      Uploads.Holds { up with heap := heap }
        (pre ++ (a, { x with congWin := some w' }) :: post) u ∧
      sweepUpload fl clock.time clock.now₁ clock.now₂ (contents pre).length
          (up.conn (pre ++ (a, x) :: post) u) =
        (P2P.checkRecvackTimeout clock.now₂ (contents pre).length
          (up.conn (pre ++ (a, { x with congWin := some w' }) :: post) u)).map (·.1) := by
  obtain ⟨w₁, hsend, hinv₁, hlpa, hlpr⟩ := UploadConn.exists_sent fl clock.time hinv
  have hopen₁ : w₁.LPA ≠ w₁.LPR - 1 := by omega
  obtain ⟨w₂, r, htimer, -⟩ :=
    UploadConn.exists_checkDatapackTimeout fl clock.now₁ hinv₁ hopen₁
  obtain ⟨heap₁, hstore₁, hup₁⟩ := storeWindow_spec hup w₁
  obtain ⟨heap₂, hstore₂, hup₂⟩ := storeWindow_spec hup₁ w₂
  simp only at hstore₂
  refine ⟨heap₂, w₂, ?_, hup₂, ?_⟩
  · rw [visitUpload, hup.uploading.next, Option.bind_some]
    simp only [hw, hsend, hstore₁, Option.bind_some, if_neg hopen₁, htimer, hstore₂]
  · rw [sweepUpload, Uploads.conn]
    simp only [contents_getElem?, Option.bind_some, hw, hsend, if_neg hopen₁, htimer, contents_set]
    rfl

theorem visitUpload_live (fl : Rounding) (hup : up.Holds (pre ++ (a, x) :: post) u)
    (hw : x.congWin = some w) (hinv : w.Inv) (hopen : w.LPA ≠ w.LPR - 1)
    (hlate : ¬ 8 * timeoutSec < clock.now₂ - x.timestamp) :
    ∃ up' x', visitUpload fl clock a up = some (up', post.head?.map Prod.fst) ∧
      up'.Holds (pre ++ (a, x') :: post) u ∧ up'.concurrUploadNum = up.concurrUploadNum ∧
      sweepUpload fl clock.time clock.now₁ clock.now₂ (contents pre).length
        (up.conn (pre ++ (a, x) :: post) u) = some (up'.conn (pre ++ (a, x') :: post) u) := by
  obtain ⟨heap, w', hvisit, hup', hsweep⟩ := visitUpload_open fl clock hup hw hinv hopen
  refine ⟨{ up with heap := heap }, { x with congWin := some w' }, ?_, hup', rfl, ?_⟩
  · rw [hvisit, checkRecvackTimeout, hup'.uploading.next, Option.bind_some, if_neg hlate,
      Option.bind_some, hup'.uploading.next, Option.map_some]
  · rw [hsweep, P2P.checkRecvackTimeout, Uploads.conn]
    simp only [contents_getElem?, Option.bind_some, if_neg hlate, Option.map_some]
    rfl

/-- **An upload timed out** is deleted, and then the loop reads its `next`. -/
theorem visitUpload_timedOut (hup : up.Holds (pre ++ (a, x) :: post) u) (hw : x.congWin = some w)
    (hinv : w.Inv) (hopen : w.LPA ≠ w.LPR - 1)
    (hlate : 8 * timeoutSec < clock.now₂ - x.timestamp) : visitUpload fl clock a up = none := by
  obtain ⟨heap, w', hvisit, hup', -⟩ := visitUpload_open fl clock hup hw hinv hopen
  obtain ⟨heap', p', hdelete, hdeleted⟩ := deleteNode_spec hup'.uploading
  rw [hvisit, checkRecvackTimeout, hup'.uploading.next, Option.bind_some, if_pos hlate,
    abortUpload]
  simp only [hdelete, Option.map_some, Option.bind_some, hdeleted.freed, Option.map_none]

/-! ## The loop -/

theorem uploadFate_cases (now : Int) (hw : x.congWin = some w) :
    uploadFate now x = .finished ∧ w.LPA = w.LPR - 1 ∨
    uploadFate now x = .timedOut ∧ w.LPA ≠ w.LPR - 1 ∧ 8 * timeoutSec < now - x.timestamp ∨
    uploadFate now x = .live ∧ w.LPA ≠ w.LPR - 1 ∧ ¬ 8 * timeoutSec < now - x.timestamp := by
  have hany : (x.congWin.any fun w => w.LPA = w.LPR - 1) = true ↔ w.LPA = w.LPR - 1 := by
    rw [hw, Option.any_some, decide_eq_true_eq]
  unfold uploadFate
  by_cases hfin : w.LPA = w.LPR - 1
  · exact .inl ⟨if_pos (hany.mpr hfin), hfin⟩
  · rw [if_neg fun h => hfin (hany.mp h)]
    by_cases hlate : 8 * timeoutSec < now - x.timestamp
    · exact .inr (.inl ⟨if_pos hlate, hfin, hlate⟩)
    · exact .inr (.inr ⟨if_neg hlate, hfin, hlate⟩)

/-- What the loop has done with the nodes `todo`, visited from `i` on. `pre` are the live nodes
visited before. -/
structure UploadsSweptFrom (clock : Nat → Visit) (i : Nat) (pre todo u : List (Nat × HashChunk))
    (up up' : Uploads) : Prop where
  lists : ∃ l' u', up'.Holds l' u' ∧
    l'.map Prod.fst = pre.map Prod.fst ++ fated (uploadFates clock) .live i todo ∧
    u'.map Prod.fst = (fated (uploadFates clock) .finished i todo).reverse ++ u.map Prod.fst
  lost : fated (uploadFates clock) .timedOut i todo = []
  slots : up'.concurrUploadNum =
    up.concurrUploadNum - (fated (uploadFates clock) .finished i todo).length

section
variable {clock : Nat → Visit} {i : Nat} {up₁ : Uploads} {todo : List (Nat × HashChunk)}

theorem UploadsSweptFrom.nil (clock : Nat → Visit) (i : Nat) (hup : up.Holds pre u) :
    UploadsSweptFrom clock i pre [] u up up :=
  ⟨⟨pre, u, hup, by simp [fated], by simp [fated]⟩, rfl, by simp [fated]⟩

theorem UploadsSweptFrom.finished {x' : HashChunk}
    (h : UploadsSweptFrom clock (i + 1) pre todo ((a, x') :: u) up₁ up')
    (hfate : uploadFates clock i x = .finished)
    (hslots : up₁.concurrUploadNum = up.concurrUploadNum - 1) :
    UploadsSweptFrom clock i pre ((a, x) :: todo) u up up' := by
  obtain ⟨l', u', hup', hl', hu'⟩ := h.lists
  have hslots' := h.slots
  refine ⟨⟨l', u', hup', ?_, ?_⟩, ?_, ?_⟩
  · simpa [fated_cons, hfate] using hl'
  · simpa [fated_cons, hfate] using hu'
  · simpa [fated_cons, hfate] using h.lost
  · simp only [fated_cons, hfate, if_true, List.length_cons]
    omega

theorem UploadsSweptFrom.live {x' : HashChunk}
    (h : UploadsSweptFrom clock (i + 1) (pre ++ [(a, x')]) todo u up₁ up')
    (hfate : uploadFates clock i x = .live)
    (hslots : up₁.concurrUploadNum = up.concurrUploadNum) :
    UploadsSweptFrom clock i pre ((a, x) :: todo) u up up' := by
  obtain ⟨l', u', hup', hl', hu'⟩ := h.lists
  refine ⟨⟨l', u', hup', ?_, ?_⟩, ?_, ?_⟩
  · simpa [fated_cons, hfate] using hl'
  · simpa [fated_cons, hfate] using hu'
  · simpa [fated_cons, hfate] using h.lost
  · simpa [fated_cons, hfate, hslots] using h.slots

theorem UploadsSweptFrom.swept (h : UploadsSweptFrom clock 0 [] l u up up') :
    UploadsSwept clock l u up up' (l.map Prod.fst) := by
  refine ⟨rfl, h.lists, ?_, ?_⟩
  · rw [h.lost]
    rintro a ⟨⟩
  · rw [h.lost, h.slots, List.length_nil, Int.natCast_zero, add_zero]

end

/-- **The loop from any node on** visits all nodes, or one of them is timed out and its `next` is
read. `pre` are the live nodes visited before. -/
theorem uploadLoop_cases (fl : Rounding) (clock : Nat → Visit) {todo : List (Nat × HashChunk)} :
    ∀ {up : Uploads} {pre u : List (Nat × HashChunk)} {n i : Nat}, up.Holds (pre ++ todo) u →
      Windows todo → todo.length < n →
      (∃ up', uploadLoop fl clock n i (todo.head?.map Prod.fst) up =
          some (up', todo.map Prod.fst) ∧ UploadsSweptFrom clock i pre todo u up up') ∨
      fated (uploadFates clock) .timedOut i todo ≠ [] ∧
        uploadLoop fl clock n i (todo.head?.map Prod.fst) up = none := by
  induction todo with
  | nil =>
    intro up pre u n i hup hwin hn
    obtain ⟨n, rfl⟩ : ∃ m, n = m + 1 := ⟨n - 1, by omega⟩
    rw [List.append_nil] at hup
    exact .inl ⟨up, rfl, .nil clock i hup⟩
  | cons e todo ih =>
    intro up pre u n i hup hwin hn
    obtain ⟨n, rfl⟩ : ∃ m, n = m + 1 := ⟨n - 1, by omega⟩
    obtain ⟨a, x⟩ := e
    obtain ⟨w, hw, hinv⟩ := hwin (a, x) List.mem_cons_self
    have hwin' : Windows todo := fun e he => hwin e (List.mem_cons_of_mem _ he)
    rw [List.length_cons] at hn
    simp only [List.head?_cons, Option.map_some, uploadLoop]
    rcases uploadFate_cases (clock i).now₂ hw with ⟨hfate, hfin⟩ | ⟨hfate, hopen, hlate⟩ |
      ⟨hfate, hopen, hlate⟩
    all_goals change uploadFates clock i x = _ at hfate
    · -- finished: the node leaves the list
      obtain ⟨up₁, x', hvisit, hup₁, hslots, -⟩ :=
        visitUpload_finished fl (clock i) hup hw hinv hfin
      rw [hvisit, Option.bind_some]
      rcases ih (n := n) (i := i + 1) hup₁ hwin' (by omega) with ⟨up', hrun, hswept⟩ |
        ⟨hsome, hrun⟩
      · refine .inl ⟨up', ?_, hswept.finished hfate hslots⟩
        simp only [hrun, Option.map_some, List.map_cons]
      · exact .inr ⟨by simpa [fated_cons, hfate] using hsome,
          by simp only [hrun, Option.map_none]⟩
    · -- timed out: the loop reads a node that was freed
      refine .inr ⟨by simp [fated_cons, hfate], ?_⟩
      rw [visitUpload_timedOut hup hw hinv hopen hlate, Option.bind_none]
    · -- live: the node is one of those in front of the rest
      obtain ⟨up₁, x', hvisit, hup₁, hslots, -⟩ := visitUpload_live fl hup hw hinv hopen hlate
      rw [hvisit, Option.bind_some]
      rw [List.append_cons] at hup₁
      rcases ih (n := n) (i := i + 1) hup₁ hwin' (by omega) with ⟨up', hrun, hswept⟩ |
        ⟨hsome, hrun⟩
      · refine .inl ⟨up', ?_, hswept.live hfate hslots⟩
        simp only [hrun, Option.map_some, List.map_cons]
      · exact .inr ⟨by simpa [fated_cons, hfate] using hsome,
          by simp only [hrun, Option.map_none]⟩

/-- **The upload sweep** does what it is to do exactly if no upload is timed out. -/
theorem sweepUploads_iff (fl : Rounding) (clock : Nat → Visit) (hup : up.Holds l u)
    (hwin : Windows l) :
    (∃ up' visited, sweepUploads fl clock up = some (up', visited) ∧
      UploadsSwept clock l u up up' visited) ↔ fated (uploadFates clock) .timedOut 0 l = [] := by
  have hlen : l.length < up.heap.size + 1 := Nat.lt_succ_of_le hup.uploading.length_le
  have hrun : sweepUploads fl clock up =
      uploadLoop fl clock (up.heap.size + 1) 0 (l.head?.map Prod.fst) up := by
    rw [sweepUploads, hup.uploading.start]
  rw [hrun]
  have hall : up.Holds ([] ++ l) u := hup
  rcases uploadLoop_cases fl clock (i := 0) hall hwin hlen with
    ⟨up', hloop, hswept⟩ | ⟨hsome, hloop⟩
  · exact ⟨fun _ => hswept.lost, fun _ => ⟨up', _, hloop, hswept.swept⟩⟩
  · constructor
    · rintro ⟨up', visited, hsweep, -⟩
      rw [hloop] at hsweep
      cases hsweep
    · intro hnone
      exact absurd hnone hsome

end

end Mem

end P2P
