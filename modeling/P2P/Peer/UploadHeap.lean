import P2P.Peer.DownloadHeap
import P2P.Peer.UploadSweep

/-!
# The upload side, operation by operation

GET and ACK on the lists of `Upload_conn` in memory, as `P2P.Peer.DownloadHeap` has the download
side: `Mem.Uploads.Represents` says that the memory is made of the two lists of a state of
`P2P.Peer.Upload`.

* `Mem.dealwithGET_rel`, `Mem.dealwithACK_rel`: each operation goes through in memory exactly if it
  does on the lists, and then the memory represents the lists it makes;
* `Mem.sweepUploads_exec`: a sweep that survives is a run of `sweepUpload` on the lists.
-/

namespace P2P

open Lib

namespace Mem

/-! ## The operations -/

/-- `init_upload`: the slot is taken first. -/
def initUpload (haslist : List HashChunk) (file : Option (List UInt8)) (now : Int) (hash : Hash)
    (dst : SockAddr) (up : Uploads) : Option (Uploads × Int) :=
  let up := { up with concurrUploadNum := up.concurrUploadNum + 1 }
  match P2P.findNode haslist hash with
  | some (_, uploadingChunk) =>
    let new := createNode up.heap dst hash uploadingChunk.chunkid
    (new.1.update new.2 fun c => ⟨{ c.data with timestamp := now }, c.next⟩).bind fun heap =>
      (appendNode heap up.uploadingList new.2).bind fun r =>
        (sendOnechunk file (createSW hash dst)).bind fun s =>
          (storeWindow r.1 new.2 s.1).map fun heap =>
            ({ up with
                heap := heap
                uploadingList := r.2 }, 1)
  | none => some (up, -1)

/-- The GET branch of `dealwithincomepack`. -/
def dealwithGET (haslist : List HashChunk) (file : Option (List UInt8)) (now : Int) (pack : Packet)
    (toaddr : SockAddr) (up : Uploads) : Option (Uploads × Option Int) :=
  if up.concurrUploadNum < up.maxUploadNum then
    (findNodeByAddr up.heap up.uploadingList toaddr).bind fun uploading =>
      if uploading = none then
        (findNodeByAddr up.heap up.uploadedList toaddr).bind fun ifUploaded =>
          (payloadHash pack 0).bind fun hash =>
            let init := (initUpload haslist file now hash toaddr up).map fun r => (r.1, some r.2)
            match ifUploaded with
            | none => init
            | some ifUploaded =>
              (up.heap.read ifUploaded).bind fun node =>
                if node.data.hash ≠ hash then init else some (up, none)
      else some (up, none)
  else some (up, none)

/-- The ACK branch of `dealwithincomepack`. -/
def dealwithACK (fl : Rounding) (pack : Packet) (toaddr : SockAddr) (now : Int) (up : Uploads) :
    Option Uploads :=
  (findNodeByAddr up.heap up.uploadingList toaddr).bind fun conn =>
    match conn with
    | none => some up
    | some conn =>
      (up.heap.update conn fun c => ⟨{ c.data with timestamp := now }, c.next⟩).bind fun heap =>
        (heap.read conn).bind fun node =>
          node.data.congWin.bind fun w =>
            (uponReceiveACK fl pack w).bind fun r =>
              (storeWindow heap conn r.1).map fun heap => { up with heap := heap }

/-! ## What the memory stands for -/

inductive UpList
  | uploadingList
  | uploadedList
  deriving DecidableEq

/-- The pointer to a list. -/
def Uploads.start (up : Uploads) : UpList → Option Nat
  | .uploadingList => up.uploadingList
  | .uploadedList => up.uploadedList

/-- The two lists by name. -/
def twoLists (l u : List (Nat × HashChunk)) : UpList → List (Nat × HashChunk)
  | .uploadingList => l
  | .uploadedList => u

/-- The memory is made of these lists, and nothing is lost. -/
def Uploads.Owns (up : Uploads) (l u : List (Nat × HashChunk)) : Prop :=
  up.heap.Lists up.start (twoLists l u)

/-- **The memory is made of the two lists of `v`.** -/
def Uploads.Represents (up : Uploads) (v : UploadConn) : Prop :=
  ∃ l u, up.Owns l u ∧ up.conn l u = v

/-- An operation that returns a value as well. -/
def UpRepresentsWith {ρ : Type*} (r : Uploads × ρ) (r' : UploadConn × ρ) : Prop :=
  r.1.Represents r'.1 ∧ r.2 = r'.2

variable {up up' : Uploads} {v : UploadConn} {a : Nat} {x : HashChunk} {w : Window}
  {l u pre post m : List (Nat × HashChunk)} {haslist : List HashChunk}

theorem Uploads.Owns.holds (hs : up.Owns l u) : up.Holds l u :=
  ⟨hs.list .uploadingList, hs.list .uploadedList, fun _ he =>
    (hs.apart .uploadedList .uploadingList (by decide)).not_mem he⟩

/-- **Nothing is lost** exactly if the nodes of the lists are as many as those of the memory. -/
theorem uploads_owns_iff : up.Owns l u ↔
    up.Holds l u ∧ up.heap.live = l.length + u.length := by
  have hlen : ((l ++ u).map Prod.fst).length = l.length + u.length := by simp
  have haddr : up.Holds l u → ((l ++ u).map Prod.fst).Nodup ∧
      ∀ a ∈ (l ++ u).map Prod.fst, ∃ c, up.heap.read a = some c := by
    intro hup
    have hread : ∀ {m : List (Nat × HashChunk)} {p : Option Nat}, up.heap.IsList p m →
        ∀ a ∈ m.map Prod.fst, ∃ c, up.heap.read a = some c := by
      intro m p hm a ha
      obtain ⟨e, he, rfl⟩ := List.mem_map.mp ha
      obtain ⟨r, hr⟩ := Heap.Seg.read hm he
      exact ⟨_, hr⟩
    simp only [List.map_append, List.nodup_append, List.mem_append, or_imp, forall_and]
    refine ⟨⟨hup.uploading.nodup, hup.uploaded.nodup, fun a ha b hb hab => ?_⟩,
      hread hup.uploading, hread hup.uploaded⟩
    obtain ⟨e, he, rfl⟩ := List.mem_map.mp hb
    exact hup.apart e he (hab ▸ ha)
  constructor
  · intro hs
    obtain ⟨hnodup, halloc⟩ := haddr hs.holds
    refine ⟨hs.holds, ?_⟩
    rw [← hlen]
    refine (Heap.owned_iff_live hnodup halloc).mp fun a c hc => ?_
    rw [List.map_append, List.mem_append]
    obtain ⟨i, hi⟩ := hs.owned a c hc
    cases i with
    | uploadingList => exact .inl hi
    | uploadedList => exact .inr hi
  · rintro ⟨hup, hlive⟩
    obtain ⟨hnodup, halloc⟩ := haddr hup
    have hapart : Heap.Apart u l := fun e he e' he' heq =>
      hup.apart e he (heq ▸ List.mem_map_of_mem he')
    refine ⟨fun i => ?_, fun i j hij => ?_, fun a c hc => ?_⟩
    · cases i
      exacts [hup.uploading, hup.uploaded]
    · cases i <;> cases j <;> first
        | exact absurd rfl hij
        | exact hapart
        | exact hapart.symm
    · have hmem := (Heap.owned_iff_live hnodup halloc).mpr (hlive.trans hlen.symm) a c hc
      rw [List.map_append, List.mem_append] at hmem
      exact hmem.elim (fun h => ⟨.uploadingList, h⟩) fun h => ⟨.uploadedList, h⟩

section
variable (up : Uploads) (l u m : List (Nat × HashChunk)) (p : Option Nat)

@[simp] theorem update_uploadingList :
    Function.update (twoLists l u) .uploadingList m = twoLists m u := by
  funext i
  cases i <;> rfl

@[simp] theorem start_uploadingList :
    Function.update up.start .uploadingList p = { up with uploadingList := p }.start := by
  funext i
  cases i <;> rfl

end

theorem update_uploading {g : HashChunk → HashChunk} (hs : up.Owns (pre ++ (a, x) :: post) u) :
    ∃ heap, up.heap.update a (fun c => ⟨g c.data, c.next⟩) = some heap ∧
      Uploads.Owns { up with heap := heap } (pre ++ (a, g x) :: post) u := by
  obtain ⟨heap, hu⟩ := Heap.exists_update hs.holds.uploading.next fun c => ⟨g c.data, c.next⟩
  have hw := Heap.Lists.write (i := .uploadingList) hs rfl hu
  rw [update_uploadingList] at hw
  exact ⟨heap, hu, hw⟩

/-! ## GET -/

theorem initUpload_rel (haslist : List HashChunk) (file : Option (List UInt8)) (now : Int)
    (hash : Hash) (dst : SockAddr) (hs : up.Owns l u) :
    Option.Rel UpRepresentsWith (initUpload haslist file now hash dst up)
      (P2P.initUpload haslist file now hash dst (up.conn l u)) := by
  unfold initUpload P2P.initUpload
  cases P2P.findNode haslist hash with
  | none => exact .some ⟨⟨l, u, hs, rfl⟩, rfl⟩
  | some r =>
    simp only
    unfold createNode
    generalize P2P.createNode dst hash r.2.chunkid = new
    have haddr : ∀ x, (up.heap.alloc x).2 = up.heap.size := fun _ => rfl
    obtain ⟨heap₁, hpush, hs₁⟩ := Heap.Lists.insert hs .uploadingList
      { new with timestamp := now }
    rw [update_uploadingList, start_uploadingList] at hs₁
    have hs₁ : Uploads.Owns { up with
        heap := heap₁
        uploadingList := some up.heap.size }
          ([] ++ (up.heap.size, { new with timestamp := now }) :: l) u := hs₁
    have hpush : (up.heap.alloc { new with timestamp := now }).1.push up.uploadingList
        up.heap.size = some heap₁ := hpush
    have hstamp := Heap.alloc_update up.heap new fun x => { x with timestamp := now }
    simp only [haddr] at hstamp ⊢
    rw [hstamp, Option.bind_some, appendNode, hpush, Option.map_some, Option.bind_some]
    cases sendOnechunk file (createSW hash dst) with
    | none => exact .none
    | some s =>
      obtain ⟨heap, hstore, hs₂⟩ := update_uploading (g := fun x => { x with congWin := some s.1 })
        hs₁
      have hstore : storeWindow heap₁ up.heap.size s.1 = some heap := hstore
      rw [Option.bind_some, Option.map_some, hstore]
      exact .some ⟨⟨_, u, hs₂, rfl⟩, rfl⟩

theorem dealwithGET_rel (haslist : List HashChunk) (file : Option (List UInt8)) (now : Int)
    (pack : Packet) (toaddr : SockAddr) (hv : up.Represents v) :
    Option.Rel UpRepresentsWith (dealwithGET haslist file now pack toaddr up)
      (P2P.dealwithGET haslist file now pack toaddr v) := by
  obtain ⟨l, u, hs, rfl⟩ := hv
  have hsame : Option.Rel (UpRepresentsWith (ρ := Option Int)) (some (up, none))
      (some (up.conn l u, none)) := .some ⟨⟨l, u, hs, rfl⟩, rfl⟩
  have hinit : ∀ hash, Option.Rel (UpRepresentsWith (ρ := Option Int))
      ((initUpload haslist file now hash toaddr up).map fun r => (r.1, some r.2))
      ((P2P.initUpload haslist file now hash toaddr (up.conn l u)).map fun r =>
        (r.1, some r.2)) := by
    intro hash
    exact rel_map (initUpload_rel haslist file now hash toaddr hs) fun r r' h =>
      ⟨h.1, congrArg some h.2⟩
  unfold dealwithGET P2P.dealwithGET UploadConn.free
  have hfree : (up.conn l u).concurrUploadNum = up.concurrUploadNum ∧
      (up.conn l u).maxUploadNum = up.maxUploadNum ∧
      (up.conn l u).uploadingList = contents l ∧ (up.conn l u).uploadedList = contents u :=
    ⟨rfl, rfl, rfl, rfl⟩
  simp only [hfree]
  by_cases hslot : up.concurrUploadNum < up.maxUploadNum
  case neg => simpa [hslot] using hsame
  rcases findNodeByAddr_cases hs.holds.uploading toaddr with ⟨hl, hl'⟩ |
    ⟨pre, b, y, post, -, hl, hl'⟩
  case inr => simpa [hslot, hl, hl'] using hsame
  rcases findNodeByAddr_cases hs.holds.uploaded toaddr with ⟨hu, hu'⟩ |
    ⟨pre, b, y, post, rfl, hu, hu'⟩
  · simp only [hslot, hl, hl', hu, hu', if_true, Option.bind_some, decide_true, Bool.true_and,
      Option.isNone_none]
    cases payloadHash pack 0 with
    | none => exact .none
    | some hash => exact hinit hash
  · simp only [hslot, hl, hl', hu, hu', if_true, Option.bind_some, decide_true, Bool.true_and,
      Option.isNone_none, hs.holds.uploaded.next]
    cases payloadHash pack 0 with
    | none => exact .none
    | some hash =>
      rw [Option.bind_some, Option.bind_some]
      split
      · exact hinit hash
      · exact hsame

/-! ## ACK -/

theorem dealwithACK_rel (fl : Rounding) (pack : Packet) (toaddr : SockAddr) (now : Int)
    (hv : up.Represents v) :
    Option.Rel Uploads.Represents (dealwithACK fl pack toaddr now up)
      (P2P.dealwithACK fl pack toaddr now v) := by
  obtain ⟨l, u, hs, rfl⟩ := hv
  unfold dealwithACK P2P.dealwithACK
  simp only [show (up.conn l u).uploadingList = contents l from rfl]
  rcases findNodeByAddr_cases hs.holds.uploading toaddr with ⟨hl, hl'⟩ |
    ⟨pre, a, x, post, rfl, hl, hl'⟩
  · rw [hl, hl', Option.bind_some]
    exact .some ⟨l, u, hs, rfl⟩
  · obtain ⟨heap₁, hstamp, hs₁⟩ := update_uploading (g := fun x => { x with timestamp := now }) hs
    rw [hl, hl', Option.bind_some]
    simp only [hstamp, Option.bind_some]
    rw [show heap₁.read a = _ from hs₁.holds.uploading.next, Option.bind_some]
    cases hw : x.congWin with
    | none => exact .none
    | some w =>
      rw [Option.bind_some, Option.bind_some]
      cases uponReceiveACK fl pack w with
      | none => exact .none
      | some r =>
        obtain ⟨heap₂, hstore, hs₂⟩ := update_uploading
          (g := fun x => { x with congWin := some r.1 }) hs₁
        have hstore : storeWindow heap₁ a r.1 = some heap₂ := hstore
        rw [Option.bind_some, Option.map_some, hstore, Option.map_some, contents_set]
        exact .some ⟨_, u, hs₂, rfl⟩

/-! ## The sweep -/

theorem live_storeWindow {heap heap' : Heap HashChunk}
    (h : storeWindow heap a w = some heap') : heap'.live = heap.live := Heap.live_update h

theorem live_checkRecvackTimeout {now : Int} {r : Int} {c : Cell HashChunk}
    (h : checkRecvackTimeout now a up = some (up', r)) (hc : up'.heap.read a = some c) :
    up'.heap.live = up.heap.live := by
  unfold checkRecvackTimeout at h
  rw [Option.bind_eq_some_iff] at h
  obtain ⟨node, hnode, h⟩ := h
  split at h
  · rw [Option.map_eq_some_iff] at h
    obtain ⟨up₁, habort, h⟩ := h
    cases h
    rw [abortUpload, Option.map_eq_some_iff] at habort
    obtain ⟨⟨heap, p⟩, hdel, habort⟩ := habort
    cases habort
    unfold deleteNode at hdel
    split at hdel
    · cases hdel
      rfl
    · rw [Option.map_eq_some_iff] at hdel
      obtain ⟨⟨heap₁, p₁⟩, -, hdel⟩ := hdel
      cases hdel
      rw [Heap.read_free, if_pos rfl] at hc
      cases hc
  · cases h
    rfl

theorem live_visitUpload {fl : Rounding} {clock : Visit} {next : Option Nat}
    (h : visitUpload fl clock a up = some (up', next)) : up'.heap.live = up.heap.live := by
  unfold visitUpload at h
  simp only [Option.bind_eq_some_iff] at h
  obtain ⟨node, -, w, -, w₁, -, heap₁, hstore₁, h⟩ := h
  split at h
  · rw [Option.map_eq_some_iff] at h
    obtain ⟨⟨heap₂, q, p⟩, hmove, h⟩ := h
    cases h
    rw [live_moveNode hmove, live_storeWindow hstore₁]
  · simp only [Option.bind_eq_some_iff, Option.map_eq_some_iff, Prod.exists] at h
    obtain ⟨w₂, r, -, heap₂, hstore₂, up₂, r', htimer, node', hread, h⟩ := h
    cases h
    rw [live_checkRecvackTimeout htimer hread, live_storeWindow hstore₂, live_storeWindow hstore₁]

/-- **The loop is a run of `sweepUpload`**, if it survives. `pre` are the live nodes visited
before. -/
theorem uploadLoop_exec (fl : Rounding) (haslist : List HashChunk) (clock : Nat → Visit)
    {todo : List (Nat × HashChunk)} :
    ∀ {up up' : Uploads} {pre u : List (Nat × HashChunk)} {n i : Nat} {visited : List Nat},
      up.Owns (pre ++ todo) u → Windows todo →
      uploadLoop fl clock n i (todo.head?.map Prod.fst) up = some (up', visited) →
      ∃ es v', exec (UploadConn.next fl haslist) (up.conn (pre ++ todo) u) es = some v' ∧
        up'.Represents v' := by
  induction todo with
  | nil =>
    intro up up' pre u n i visited hs hwin h
    cases n with
    | zero => cases h
    | succ n =>
      cases h
      exact ⟨[], _, rfl, _, _, hs, rfl⟩
  | cons e todo ih =>
    intro up up' pre u n i visited hs hwin h
    cases n with
    | zero => cases h
    | succ n =>
      obtain ⟨a, x⟩ := e
      obtain ⟨w, hw, hinv⟩ := hwin (a, x) List.mem_cons_self
      have hwin' : Windows todo := fun e he => hwin e (List.mem_cons_of_mem _ he)
      have hlive := (uploads_owns_iff.mp hs).2
      simp only [List.head?_cons, Option.map_some, uploadLoop, Option.bind_eq_some_iff,
        Option.map_eq_some_iff, Prod.exists] at h
      obtain ⟨up₁, next, hvisit, up₂, seen, hrest, h⟩ := h
      cases h
      have hfreed := live_visitUpload hvisit
      -- the event is that of the visit, at the place of the node
      have hevent : ∀ {v v' : UploadConn}, sweepUpload fl (clock i).time (clock i).now₁
          (clock i).now₂ (contents pre).length v = some v' →
          UploadConn.next fl haslist v (.sweep (clock i).time (clock i).now₁ (clock i).now₂
            (contents pre).length) = some v' := fun h => h
      rcases uploadFate_cases (clock i).now₂ hw with ⟨-, hfin⟩ | ⟨-, hopen, hlate⟩ |
        ⟨-, hopen, hlate⟩
      · obtain ⟨up₃, x', hvisit', hup', -, hsweep⟩ :=
          visitUpload_finished fl (clock i) hs.holds hw hinv hfin
        rw [hvisit, Option.some.injEq, Prod.mk.injEq] at hvisit'
        obtain ⟨rfl, rfl⟩ := hvisit'
        have hs' : up₁.Owns (pre ++ todo) ((a, x') :: u) := by
          refine uploads_owns_iff.mpr ⟨hup', ?_⟩
          simp only [List.length_append, List.length_cons] at hlive ⊢
          omega
        obtain ⟨es, v', hrun, hv'⟩ := ih hs' hwin' hrest
        exact ⟨_ :: es, v', by rw [exec_step (hevent hsweep), hrun], hv'⟩
      · rw [visitUpload_timedOut hs.holds hw hinv hopen hlate] at hvisit
        cases hvisit
      · obtain ⟨up₃, x', hvisit', hup', -, hsweep⟩ :=
          visitUpload_live fl hs.holds hw hinv hopen hlate
        rw [hvisit, Option.some.injEq, Prod.mk.injEq] at hvisit'
        obtain ⟨rfl, rfl⟩ := hvisit'
        have hs' : up₁.Owns (pre ++ (a, x') :: todo) u := by
          refine uploads_owns_iff.mpr ⟨hup', ?_⟩
          simp only [List.length_append, List.length_cons] at hlive ⊢
          omega
        rw [List.append_cons] at hs'
        obtain ⟨es, v', hrun, hv'⟩ := ih hs' hwin' hrest
        rw [← List.append_cons] at hrun
        exact ⟨_ :: es, v', by rw [exec_step (hevent hsweep), hrun], hv'⟩

/-- **A sweep that survives** is a run of `sweepUpload` on the lists. -/
theorem sweepUploads_exec (fl : Rounding) (haslist : List HashChunk) (clock : Nat → Visit)
    {visited : List Nat} (hv : up.Represents v) (hwin : v.Windows)
    (h : sweepUploads fl clock up = some (up', visited)) :
    ∃ es v', exec (UploadConn.next fl haslist) v es = some v' ∧ up'.Represents v' := by
  obtain ⟨l, u, hs, rfl⟩ := hv
  have hwin' : Windows l := fun e he => hwin e.2 (List.mem_map_of_mem he)
  have hall : up.Owns ([] ++ l) u := hs
  rw [sweepUploads, hs.holds.uploading.start] at h
  exact uploadLoop_exec fl haslist clock hall hwin' h

end Mem

end P2P
