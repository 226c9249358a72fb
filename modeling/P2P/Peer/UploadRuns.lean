import P2P.Peer.Upload
import P2P.Transfer.WindowRuns

/-!
# Upload slots

`UploadConn.next_cases` says what one event does to the connections and to the
counter. Only a GET that `init_upload` refuses breaks the accounting, and it does so
whenever it comes:

* `upload_slots_iff`: the slots are accounted for throughout a run, and refusals
  leave no trace, exactly when the run has no refused GET;
* `refused_get_keeps_slot`: a GET for a chunk nobody has.

`UploadConn.exec_windows`: the windows are in order after every run, and so
(`exists_next_of_enabled`) no enabled event makes the code follow a pointer it must not follow. An
ACK is enabled if it is for a packet of its window.
-/

namespace P2P

open Lib

namespace UploadConn

variable {fl : Rounding} {haslist : List HashChunk} {up up' : UploadConn} {e : UploadEvent}

/-- The peers served. -/
def peers (up : UploadConn) : List SockAddr := up.uploadingList.map HashChunk.fromAddr

/-- The slots are accounted for. -/
structure Lawful (up : UploadConn) : Prop where
  counted : up.concurrUploadNum = up.uploadingList.length
  nonneg : 0 ≤ up.concurrUploadNum
  le_max : up.concurrUploadNum ≤ up.maxUploadNum
  nodup : (up.uploadingList.map HashChunk.fromAddr).Nodup

/-- No two connections are to one port. -/
def Distinct (up : UploadConn) : Prop := (up.peers.map SockAddr.sinPort).Nodup

/-- The GET is admitted and asks for a chunk the peer does not have. -/
def Refuses (haslist : List HashChunk) (up : UploadConn) (pack : Packet) (addr : SockAddr) : Prop :=
  up.free addr ∧ ∃ hash, payloadHash pack 0 = some hash ∧ hash ∉ haslist.map HashChunk.hash ∧
    ∀ k x, findNodeByAddr up.uploadedList addr = some (k, x) → x.hash ≠ hash

/-- The event is not a GET to be refused. -/
def NoRefusal (haslist : List HashChunk) (up : UploadConn) (e : UploadEvent)
    (_ : UploadConn) : Prop :=
  ∀ file now pack addr, e = .get file now pack addr → ¬ Refuses haslist up pack addr

/-- If the event is a GET and `init_upload` returns -1, nothing changes. -/
def RefusalKeepsState (haslist : List HashChunk) (up : UploadConn) (e : UploadEvent)
    (up' : UploadConn) : Prop :=
  ∀ file now pack addr, e = .get file now pack addr →
    dealwithGET haslist file now pack addr up = some (up', some (-1)) → up' = up

/-! ## What an event does -/

/-- What an event that refuses no GET does to the connections and the counter. -/
inductive Change (up up' : UploadConn) : Prop
  | kept : up'.peers = up.peers → up'.concurrUploadNum = up.concurrUploadNum →
      up'.maxUploadNum = up.maxUploadNum → Change up up'
  | started (addr : SockAddr) : up.free addr → up'.peers = addr :: up.peers →
      up'.concurrUploadNum = up.concurrUploadNum + 1 → up'.maxUploadNum = up.maxUploadNum →
      Change up up'
  | ended (addr : SockAddr) : up.peers.Perm (addr :: up'.peers) →
      up'.concurrUploadNum = up.concurrUploadNum - 1 → up'.maxUploadNum = up.maxUploadNum →
      Change up up'

theorem free_iff {addr : SockAddr} : up.free addr ↔
    up.concurrUploadNum < up.maxUploadNum ∧ addr.sinPort ∉ up.peers.map SockAddr.sinPort := by
  unfold free peers
  rw [Bool.and_eq_true, decide_eq_true_eq, Option.isNone_iff_eq_none, findNodeByAddr_none,
    List.map_map]
  rfl

/-- **`init_upload`** is refused exactly for a hash that is not in `haslist`. -/
theorem initUpload_cases {file : Option (List UInt8)} {now : Int} {hash : Hash} {dst : SockAddr}
    {r : Int} (h : initUpload haslist file now hash dst up = some (up', r)) :
    (hash ∈ haslist.map HashChunk.hash ∧ r = 1 ∧ up'.peers = dst :: up.peers ∧
      up'.concurrUploadNum = up.concurrUploadNum + 1 ∧ up'.maxUploadNum = up.maxUploadNum) ∨
    (hash ∉ haslist.map HashChunk.hash ∧ r = -1 ∧
      up' = { up with concurrUploadNum := up.concurrUploadNum + 1 }) := by
  unfold initUpload at h
  split at h
  · rename_i k x hfind
    rw [Option.map_eq_some_iff] at h
    obtain ⟨⟨sw, ret⟩, -, h⟩ := h
    rw [Prod.mk.injEq] at h
    obtain ⟨rfl, rfl⟩ := h
    obtain ⟨hx, hhash, -⟩ := findNode_spec hfind
    have hmem := List.mem_map_of_mem (f := HashChunk.hash) (List.mem_of_getElem? hx)
    rw [hhash] at hmem
    exact .inl ⟨hmem, rfl, rfl, rfl, rfl⟩
  · rename_i hfind
    cases h
    exact .inr ⟨findNode_none.mp hfind, rfl, rfl⟩

/-- A GET starts an upload, changes nothing, or is refused and keeps the slot. -/
theorem dealwithGET_cases {file : Option (List UInt8)} {now : Int} {pack : Packet}
    {addr : SockAddr} {r : Option Int}
    (h : dealwithGET haslist file now pack addr up = some (up', r)) :
    (¬ Refuses haslist up pack addr ∧ r ≠ some (-1) ∧ Change up up') ∨
    (Refuses haslist up pack addr ∧ r = some (-1) ∧
      up' = { up with concurrUploadNum := up.concurrUploadNum + 1 }) := by
  unfold dealwithGET at h
  by_cases hfree : up.free addr
  case neg =>
    rw [if_neg hfree] at h
    cases h
    exact .inl ⟨fun hr => hfree hr.1, by simp, .kept rfl rfl rfl⟩
  rw [if_pos hfree, Option.bind_eq_some_iff] at h
  obtain ⟨hash, hhash, h⟩ := h
  -- once `init_upload` is called, its result decides
  have of_init : (∀ k x, findNodeByAddr up.uploadedList addr = some (k, x) → x.hash ≠ hash) →
      (initUpload haslist file now hash addr up).map (fun init => (init.1, some init.2)) =
        some (up', r) →
      (¬ Refuses haslist up pack addr ∧ r ≠ some (-1) ∧ Change up up') ∨
      (Refuses haslist up pack addr ∧ r = some (-1) ∧
        up' = { up with concurrUploadNum := up.concurrUploadNum + 1 }) := by
    intro hnew hinit
    rw [Option.map_eq_some_iff] at hinit
    obtain ⟨⟨up₁, r₁⟩, hinit, heq⟩ := hinit
    rw [Prod.mk.injEq] at heq
    obtain ⟨rfl, rfl⟩ := heq
    rcases initUpload_cases hinit with ⟨hmem, rfl, hpeers, hc, hm⟩ | ⟨hmem, rfl, hup⟩
    · refine .inl ⟨?_, by simp, .started addr hfree hpeers hc hm⟩
      rintro ⟨-, hash', hhash', hnot, -⟩
      rw [hhash, Option.some.injEq] at hhash'
      subst hhash'
      exact hnot hmem
    · exact .inr ⟨⟨hfree, hash, hhash, hmem, hnew⟩, rfl, hup⟩
  split at h
  · rename_i hnone
    exact of_init (fun k x hx => by rw [hnone] at hx; cases hx) h
  · rename_i k x hsome
    split at h
    · rename_i hne
      refine of_init (fun k' x' hx' => ?_) h
      rw [hsome] at hx'
      cases hx'
      exact hne
    · rename_i heq
      cases h
      refine .inl ⟨?_, by simp, .kept rfl rfl rfl⟩
      rintro ⟨-, hash', hhash', -, hnew⟩
      rw [hhash, Option.some.injEq] at hhash'
      subst hhash'
      exact heq (hnew k x hsome)

theorem map_fromAddr_set {l : List HashChunk} {k : Nat} {x y : HashChunk} (hx : l[k]? = some x)
    (hy : y.fromAddr = x.fromAddr) :
    (l.set k y).map HashChunk.fromAddr = l.map HashChunk.fromAddr :=
  map_set_key HashChunk.fromAddr hx hy

theorem change_ack {pack : Packet} {addr : SockAddr} {now : Int}
    (h : dealwithACK fl pack addr now up = some up') : Change up up' := by
  unfold dealwithACK at h
  split at h
  · cases h
    exact .kept rfl rfl rfl
  · rename_i k conn hconn
    rw [Option.bind_eq_some_iff] at h
    obtain ⟨w, -, h⟩ := h
    rw [Option.map_eq_some_iff] at h
    obtain ⟨⟨w', b⟩, -, rfl⟩ := h
    exact .kept (map_fromAddr_set (findNodeByAddr_spec hconn).1 rfl) rfl rfl

theorem perm_peers {l : List HashChunk} {k : Nat} {x : HashChunk} (h : l[k]? = some x) :
    (l.map HashChunk.fromAddr).Perm
      (x.fromAddr :: (deleteNode l k).map HashChunk.fromAddr) :=
  ((perm_deleteNode h).map HashChunk.fromAddr).symm

theorem change_abort {k : Nat} (h : abortUpload k up = some up') : Change up up' := by
  unfold abortUpload at h
  rw [Option.map_eq_some_iff] at h
  obtain ⟨x, hx, rfl⟩ := h
  exact .ended x.fromAddr (perm_peers hx) rfl rfl

/-- **A visit of the sweep** ends an upload that is complete, or one that was given up, or stores
its window. -/
theorem sweepUpload_cases {time : Nat → Int} {now₁ now₂ : Int} {k : Nat}
    (h : sweepUpload fl time now₁ now₂ k up = some up') :
    ∃ x w w₁, up.uploadingList[k]? = some x ∧ x.congWin = some w ∧
      (if w.LPS < w.LPR - 1 then (windowSender time w).map (·.1) else some w) = some w₁ ∧
      ((w₁.LPA = w₁.LPR - 1 ∧ up' = { up with
          uploadedList := { x with congWin := some w₁ } :: up.uploadedList
          uploadingList := deleteNode up.uploadingList k
          concurrUploadNum := up.concurrUploadNum - 1 }) ∨
        ∃ w' b, w₁.LPA ≠ w₁.LPR - 1 ∧ checkDatapackTimeout fl now₁ w₁ = some (w', b) ∧
          (up' = { up with
              uploadingList := deleteNode up.uploadingList k
              concurrUploadNum := up.concurrUploadNum - 1 } ∨
            up' = { up with
              uploadingList := up.uploadingList.set k { x with congWin := some w' } })) := by
  unfold sweepUpload at h
  rw [Option.bind_eq_some_iff] at h
  obtain ⟨x, hx, h⟩ := h
  rw [Option.bind_eq_some_iff] at h
  obtain ⟨w, hw, h⟩ := h
  rw [Option.bind_eq_some_iff] at h
  obtain ⟨w₁, hsend, h⟩ := h
  have hk : k < up.uploadingList.length := (List.getElem?_eq_some_iff.mp hx).1
  have hset : ∀ y, (up.uploadingList.set k y)[k]? = some y := fun y => List.getElem?_set_self hk
  have hdel : ∀ y, deleteNode (up.uploadingList.set k y) k = deleteNode up.uploadingList k :=
    fun y => List.eraseIdx_set_eq
  refine ⟨x, w, w₁, hx, hw, hsend, ?_⟩
  split at h
  · -- the upload is complete
    rename_i hdone
    rw [Option.map_eq_some_iff] at h
    obtain ⟨⟨uploaded, uploading⟩, hmove, rfl⟩ := h
    unfold moveNode at hmove
    rw [hset, hdel, Option.map_some] at hmove
    cases hmove
    exact .inl ⟨hdone, rfl⟩
  · rename_i hopen
    rw [Option.bind_eq_some_iff] at h
    obtain ⟨⟨w', b⟩, hrun, h⟩ := h
    rw [Option.map_eq_some_iff] at h
    obtain ⟨⟨up₂, r⟩, h, rfl⟩ := h
    refine .inr ⟨w', b, hopen, hrun, ?_⟩
    unfold checkRecvackTimeout at h
    simp only [List.set_set] at h
    rw [hset, Option.bind_some] at h
    split at h
    · rw [Option.map_eq_some_iff] at h
      obtain ⟨up₃, habort, heq⟩ := h
      cases heq
      unfold abortUpload at habort
      rw [hset, hdel, Option.map_some] at habort
      cases habort
      exact .inl rfl
    · cases h
      exact .inr rfl

theorem change_sweep {time : Nat → Int} {now₁ now₂ : Int} {k : Nat}
    (h : sweepUpload fl time now₁ now₂ k up = some up') : Change up up' := by
  obtain ⟨x, w, w₁, hx, -, -, ⟨-, rfl⟩ | ⟨w', b, -, -, rfl | rfl⟩⟩ := sweepUpload_cases h
  · exact .ended x.fromAddr (perm_peers hx) rfl rfl
  · exact .ended x.fromAddr (perm_peers hx) rfl rfl
  · exact .kept (map_fromAddr_set hx rfl) rfl rfl

/-- **Every event** changes the connections and the counter together, or is a refused GET, which
takes a slot and nothing else. -/
theorem next_cases (h : next fl haslist up e = some up') :
    (NoRefusal haslist up e up' ∧ Change up up') ∨
    (¬ NoRefusal haslist up e up' ∧ ¬ RefusalKeepsState haslist up e up' ∧
      up' = { up with concurrUploadNum := up.concurrUploadNum + 1 }) := by
  cases e with
  | get file now pack addr =>
    rw [next, Option.map_eq_some_iff] at h
    obtain ⟨⟨up₁, r⟩, h, rfl⟩ := h
    rcases dealwithGET_cases h with ⟨hno, -, hchange⟩ | ⟨href, rfl, hup⟩
    · refine .inl ⟨?_, hchange⟩
      rintro file' now' pack' addr' heq
      cases heq
      exact hno
    · refine .inr ⟨fun hno => hno file now pack addr rfl href, fun hkeep => ?_, hup⟩
      have hsame := hkeep file now pack addr rfl h
      rw [hup] at hsame
      have := congrArg concurrUploadNum hsame
      simp only at this
      omega
  | ack pack addr now => exact .inl ⟨fun _ _ _ _ heq => (nomatch heq), change_ack h⟩
  | sweep time now₁ now₂ k => exact .inl ⟨fun _ _ _ _ heq => (nomatch heq), change_sweep h⟩
  | abort k => exact .inl ⟨fun _ _ _ _ heq => (nomatch heq), change_abort h⟩

/-! ## The slots -/

theorem Change.distinct (h : Change up up') (hd : up.Distinct) : up'.Distinct := by
  unfold Distinct at *
  cases h with
  | kept hp => rwa [hp]
  | started addr hfree hp =>
    rw [hp, List.map_cons, List.nodup_cons]
    exact ⟨(free_iff.mp hfree).2, hd⟩
  | ended addr hp =>
    have hperm := (hp.map SockAddr.sinPort).nodup_iff.mp hd
    exact (List.nodup_cons.mp hperm).2

theorem next_distinct (hd : up.Distinct) (h : next fl haslist up e = some up') : up'.Distinct := by
  rcases next_cases h with ⟨-, hchange⟩ | ⟨-, -, rfl⟩
  · exact hchange.distinct hd
  · exact hd

theorem Change.lawful (h : Change up up') (hd : up'.Distinct) (hl : up.Lawful) : up'.Lawful := by
  obtain ⟨hcount, hnn, hle, -⟩ := hl
  have hlen : ∀ up : UploadConn, up.uploadingList.length = up.peers.length :=
    fun up => (List.length_map HashChunk.fromAddr).symm
  rw [hlen] at hcount
  have hnodup : (up'.uploadingList.map HashChunk.fromAddr).Nodup := List.Nodup.of_map _ hd
  cases h with
  | kept hp hc hm =>
    exact ⟨by rw [hlen, hp, hc, hcount], by omega, by omega, hnodup⟩
  | started addr hfree hp hc hm =>
    have hlt := (free_iff.mp hfree).1
    refine ⟨?_, by omega, by omega, hnodup⟩
    rw [hlen, hp, List.length_cons, hc]
    omega
  | ended addr hp hc hm =>
    have hperm := hp.length_eq
    rw [List.length_cons] at hperm
    refine ⟨?_, by omega, by omega, hnodup⟩
    rw [hlen, hc]
    omega

theorem not_lawful_leak (hl : up.Lawful) :
    ¬ Lawful { up with concurrUploadNum := up.concurrUploadNum + 1 } := by
  rintro ⟨hcount, -⟩
  have := hl.counted
  simp only at hcount
  omega

/-- **One step** out of an accounted state is accounted, and a refusal leaves no trace, exactly if
the step refuses no GET. -/
theorem step_iff (hd : up.Distinct) (hl : up.Lawful) (h : next fl haslist up e = some up') :
    up'.Lawful ∧ RefusalKeepsState haslist up e up' ↔ NoRefusal haslist up e up' := by
  rcases next_cases h with ⟨hno, hchange⟩ | ⟨href, hlost, rfl⟩
  · refine ⟨fun _ => hno, fun _ => ⟨hchange.lawful (hchange.distinct hd) hl, ?_⟩⟩
    intro file now pack addr heq hget
    rcases dealwithGET_cases hget with ⟨-, hr, -⟩ | ⟨href, -, -⟩
    · exact absurd rfl hr
    · exact absurd href (hno file now pack addr heq)
  · exact ⟨fun ⟨hl', _⟩ => absurd hl' (not_lawful_leak hl), fun hno => absurd hno href⟩

/-! ## The windows -/

/-- Every upload has a window, in order. -/
def Windows (up : UploadConn) : Prop :=
  ∀ x ∈ up.uploadingList, ∃ w, x.congWin = some w ∧ w.Inv

/-- The packet has a hash, the node is there, the ACK is for a packet of its window. -/
def Enabled (up : UploadConn) : UploadEvent → Prop
  | .get _ _ pack _ => hashSize ≤ pack.payload.length
  | .ack pack addr _ => ∀ k x w, findNodeByAddr up.uploadingList addr = some (k, x) →
      x.congWin = some w → (pack.ackNum.toNat : Int) < w.LPR
  | .sweep _ _ _ k => k < up.uploadingList.length
  | .abort k => k < up.uploadingList.length

theorem Windows.of_subset (h : up.Windows) (hsub : up'.uploadingList ⊆ up.uploadingList) :
    up'.Windows := fun x hx => h x (hsub hx)

theorem Windows.set (h : up.Windows) {k : Nat} {y : HashChunk} {w : Window}
    (hy : y.congWin = some w) (hw : w.Inv) :
    Windows { up with uploadingList := up.uploadingList.set k y } := by
  intro x hx
  rcases List.mem_or_eq_of_mem_set hx with hold | rfl
  · exact h x hold
  · exact ⟨w, hy, hw⟩

/-- The buffer of `send_onechunk` behind `pread`. -/
def chunkBuffer (bytes : List UInt8) : List UInt8 :=
  bytes.take chunkSize ++ List.replicate (chunkSize + 1 - (bytes.take chunkSize).length) 0

theorem length_chunkBuffer (bytes : List UInt8) : chunkSize ≤ (chunkBuffer bytes).length := by
  rw [chunkBuffer, List.length_append, List.length_replicate]
  omega

/-- **`send_onechunk`** fills a fresh window with the 512 packets of its buffer. -/
theorem sendOnechunk_some (bytes : List UInt8) (hash : Hash) (dst : SockAddr) :
    ∃ w, sendOnechunk (some bytes) (createSW hash dst) = some (w, 1) ∧
      Window.Added (chunkBuffer bytes) chunkSize 0 (createSW hash dst) w chunkSize 512 := by
  have hlen := length_chunkBuffer bytes
  obtain ⟨w, r, m, hrun, hadd⟩ :=
    p2pSender_spec (createSW hash dst) hlen (by simp [createSW]) (by simp [createSW])
  have hlpr : w.LPR = 513 := Window.Loaded.lpr_chunk ⟨hlen, hash, dst, r, hrun⟩
  have hcs : chunkSize = 524288 := rfl
  have hw : w.LPR = 1 + m := by rw [hadd.frame]; rfl
  have hm : m = 512 := by omega
  subst hm
  have hr : r = chunkSize := hadd.bytes
  subst hr
  refine ⟨w, ?_, hadd⟩
  have hbuf : p2pSender (bytes.take chunkSize ++
      List.replicate (chunkSize + 1 - (bytes.take chunkSize).length) 0) (createSW hash dst)
        chunkSize = some (w, chunkSize) := hrun
  simp only [sendOnechunk, hbuf, Option.map_some, if_true]

/-- Without a data file the window is left empty, with it it holds a chunk; nothing is sent yet. -/
theorem sendOnechunk_cases (file : Option (List UInt8)) (hash : Hash) (dst : SockAddr) :
    ∃ w r, sendOnechunk file (createSW hash dst) = some (w, r) ∧ w.Inv ∧ w.LPA = 0 ∧ w.LPS = 0 ∧
      (r = -1 ∧ file = none ∧ w.LPR = 1 ∨ r = 1 ∧ file ≠ none ∧ w.LPR = 513) := by
  cases file with
  | none => exact ⟨_, _, rfl, inv_createSW hash dst, rfl, rfl, .inl ⟨rfl, rfl, rfl⟩⟩
  | some bytes =>
    obtain ⟨w, hrun, hadd⟩ := sendOnechunk_some bytes hash dst
    have hfr := hadd.frame
    exact ⟨w, 1, hrun, hadd.inv (length_chunkBuffer bytes), by rw [hfr]; rfl, by rw [hfr]; rfl,
      .inr ⟨rfl, nofun, by rw [hfr]; rfl⟩⟩

theorem exists_initUpload (h : up.Windows) (haslist : List HashChunk) (file : Option (List UInt8))
    (now : Int) (hash : Hash) (dst : SockAddr) :
    ∃ up' r, initUpload haslist file now hash dst up = some (up', r) ∧ up'.Windows := by
  unfold initUpload
  split
  · obtain ⟨w, r, hrun, hw, -⟩ := sendOnechunk_cases file hash dst
    rw [hrun]
    refine ⟨_, _, rfl, fun x hx => ?_⟩
    rcases List.mem_cons.mp hx with rfl | hold
    · exact ⟨w, rfl, hw⟩
    · exact h x hold
  · exact ⟨_, _, rfl, h⟩

theorem exists_dealwithGET (h : up.Windows) (haslist : List HashChunk)
    (file : Option (List UInt8)) (now : Int) {pack : Packet} (addr : SockAddr)
    (hlen : hashSize ≤ pack.payload.length) :
    ∃ up' r, dealwithGET haslist file now pack addr up = some (up', r) ∧ up'.Windows := by
  obtain ⟨hash, hhash⟩ : ∃ hash, payloadHash pack 0 = some hash := by
    rw [payloadHash, Nat.zero_mul, List.drop_zero, Hash.ofBytes, dif_pos hlen]
    exact ⟨_, rfl⟩
  obtain ⟨up', r, hinit, hw⟩ := exists_initUpload h haslist file now hash addr
  unfold dealwithGET
  split
  · rw [hhash, Option.bind_some, hinit]
    split
    · exact ⟨_, _, rfl, hw⟩
    · split
      · exact ⟨_, _, rfl, hw⟩
      · exact ⟨_, _, rfl, h⟩
  · exact ⟨_, _, rfl, h⟩

theorem exists_dealwithACK (fl : Rounding) (h : up.Windows) (pack : Packet) (addr : SockAddr)
    (now : Int) (he : up.Enabled (.ack pack addr now)) :
    ∃ up', dealwithACK fl pack addr now up = some up' ∧ up'.Windows := by
  unfold dealwithACK
  split
  · exact ⟨_, rfl, h⟩
  · rename_i k conn hconn
    have hmem := List.mem_of_getElem? (findNodeByAddr_spec hconn).1
    obtain ⟨w, hw, hinv⟩ := h conn hmem
    have hlt := he k conn w hconn hw
    obtain ⟨w', r, hrun⟩ : ∃ w' r, uponReceiveACK fl pack w = some (w', r) := by
      by_cases hzero : pack.ackNum.toNat = 0
      · exact ⟨_, _, uponReceiveACK_zero hzero⟩
      · obtain ⟨p, w₁, w', -, -, -, hrun⟩ := uponReceiveACK_spec fl hinv rfl (by omega) hlt
        exact ⟨_, _, hrun⟩
    rw [hw, Option.bind_some, hrun]
    exact ⟨_, rfl, h.set rfl (Window.next_inv hinv (Window.next_ack hrun))⟩

theorem exists_abortUpload (h : up.Windows) {k : Nat} (hk : k < up.uploadingList.length) :
    ∃ up', abortUpload k up = some up' ∧ up'.Windows := by
  rw [abortUpload, List.getElem?_eq_getElem hk]
  exact ⟨_, rfl, h.of_subset fun x hx => List.mem_of_mem_eraseIdx hx⟩

theorem exists_checkRecvackTimeout (h : up.Windows) (now : Int) {k : Nat}
    (hk : k < up.uploadingList.length) :
    ∃ up' r, checkRecvackTimeout now k up = some (up', r) ∧ up'.Windows := by
  rw [checkRecvackTimeout, List.getElem?_eq_getElem hk, Option.bind_some]
  split
  · obtain ⟨up', habort, hw⟩ := exists_abortUpload h hk
    rw [habort]
    exact ⟨_, _, rfl, hw⟩
  · exact ⟨_, _, rfl, h⟩

theorem exists_sent (fl : Rounding) (time : Nat → Int) {w : Window} (hw : w.Inv) :
    ∃ w', (if w.LPS < w.LPR - 1 then (windowSender time w).map (·.1) else some w) = some w' ∧
      w'.Inv ∧ w'.LPA = w.LPA ∧ w'.LPR = w.LPR := by
  split
  · obtain ⟨w', ms, hrun, hsent, -⟩ := windowSender_spec time hw
    have hnext : w.next fl (.send time) = some { w' with count := 0 } := Window.next_send hrun
    have hlpa : w'.LPA = w.LPA := by rw [hsent.frame]
    rw [hrun]
    exact ⟨_, rfl, Window.next_inv hw hnext, hlpa, hsent.sameData.lpr⟩
  · exact ⟨w, rfl, hw, rfl, rfl⟩

theorem exists_checkDatapackTimeout (fl : Rounding) (now : Int) {w : Window} (hw : w.Inv)
    (hopen : w.LPA ≠ w.LPR - 1) :
    ∃ w' r, checkDatapackTimeout fl now w = some (w', r) ∧ w'.Inv := by
  have hlt : w.LPA < w.LPR - 1 := by
    have hle := hw.lpa_le
    have hlps := hw.lps_lt
    omega
  have inv_of_run : ∀ w' r, checkDatapackTimeout fl now w = some (w', r) → w'.Inv := by
    intro w' r hrun
    exact Window.next_inv hw (Window.next_timeout hrun)
  obtain ⟨p, -, ⟨-, -, -, -, w', hrun, -⟩ | ⟨-, hrun⟩⟩ := checkDatapackTimeout_spec fl now hw hlt
  · exact ⟨_, _, hrun, inv_of_run _ _ hrun⟩
  · exact ⟨_, _, hrun, hw⟩

/-- **One visit of the sweep**: sending and the timers find their packets. -/
theorem exists_sweepUpload (fl : Rounding) (h : up.Windows) (time : Nat → Int) (now₁ now₂ : Int)
    {k : Nat} (hk : k < up.uploadingList.length) :
    ∃ up', sweepUpload fl time now₁ now₂ k up = some up' ∧ up'.Windows := by
  have hcurr := List.getElem?_eq_getElem hk
  obtain ⟨w, hw, hinv⟩ := h _ (List.mem_of_getElem? hcurr)
  obtain ⟨w₁, hsend, hinv₁, -⟩ := exists_sent fl time hinv
  have hset : ∀ y, (up.uploadingList.set k y)[k]? = some y := fun y => List.getElem?_set_self hk
  rw [sweepUpload, hcurr, Option.bind_some, hw, Option.bind_some, hsend, Option.bind_some]
  split
  · have hmove : ∀ y, moveNode up.uploadedList (up.uploadingList.set k y) k =
        some (y :: up.uploadedList, (up.uploadingList.set k y).eraseIdx k) := by
      intro y
      rw [moveNode, hset]
      rfl
    simp only [hmove, Option.map_some]
    refine ⟨_, rfl, fun x hx => ?_⟩
    exact h.set (k := k) (w := w₁) rfl hinv₁ x (List.mem_of_mem_eraseIdx hx)
  · rename_i hopen
    obtain ⟨w₂, r, hrun, hinv₂⟩ := exists_checkDatapackTimeout fl now₁ hinv₁ hopen
    have hset₂ := h.set (k := k) (y := { up.uploadingList[k] with congWin := some w₂ }) rfl hinv₂
    obtain ⟨up', r', hack, hw'⟩ := exists_checkRecvackTimeout hset₂ now₂
      (by rw [List.length_set]; exact hk)
    simp only [hrun, Option.bind_some, List.set_set, hack, Option.map_some]
    exact ⟨_, rfl, hw'⟩

theorem exists_next_of_enabled (fl : Rounding) (haslist : List HashChunk) (h : up.Windows)
    (he : up.Enabled e) : ∃ up', next fl haslist up e = some up' ∧ up'.Windows := by
  cases e with
  | get file now pack addr =>
    obtain ⟨up', r, hget, hw⟩ := exists_dealwithGET h haslist file now addr he
    rw [next, hget]
    exact ⟨_, rfl, hw⟩
  | ack pack addr now => exact exists_dealwithACK fl h pack addr now he
  | sweep time now₁ now₂ k => exact exists_sweepUpload fl h time now₁ now₂ he
  | abort k => exact exists_abortUpload h he

/-- An event that is not enabled is a fault, or changes nothing. -/
theorem next_of_not_enabled (h : up.Windows) (he : ¬ up.Enabled e)
    (hnext : next fl haslist up e = some up') : up' = up := by
  cases e with
  | get file now pack addr =>
    have hshort : payloadHash pack 0 = none := by
      rw [payloadHash, Nat.zero_mul, List.drop_zero, Hash.ofBytes]
      exact dif_neg he
    rw [next, dealwithGET, hshort, Option.bind_none] at hnext
    split at hnext
    · cases hnext
    · cases hnext
      rfl
  | ack pack addr now =>
    unfold Enabled at he
    push Not at he
    obtain ⟨k, x, w, hfind, hw, hle⟩ := he
    obtain ⟨w', hw', hinv⟩ := h x (List.mem_of_getElem? (findNodeByAddr_spec hfind).1)
    cases hw.symm.trans hw'
    rw [next, dealwithACK, hfind] at hnext
    simp only [hw, Option.bind_some, uponReceiveACK_beyond hinv hle, Option.map_none] at hnext
    cases hnext
  | sweep time now₁ now₂ k =>
    rw [next, sweepUpload, List.getElem?_eq_none (Nat.le_of_not_lt he)] at hnext
    cases hnext
  | abort k =>
    rw [next, abortUpload, List.getElem?_eq_none (Nat.le_of_not_lt he)] at hnext
    cases hnext

theorem exec_windows {config : Config} {es : List UploadEvent}
    (h : exec (next fl haslist) (initUploadConn config) es = some up) : up.Windows := by
  refine exec_invariant Windows (fun s e t hs hnext => ?_) ?_ h
  · by_cases he : s.Enabled e
    · obtain ⟨t', hrun, ht⟩ := exists_next_of_enabled fl haslist hs he
      cases hnext.symm.trans hrun
      exact ht
    · rw [next_of_not_enabled hs he hnext]
      exact hs
  · exact fun x hx => absurd hx List.not_mem_nil

end UploadConn

open UploadConn in
/-- **Upload-slot accounting.** In a run from the start, the slots are accounted for in every state
and every refusal leaves the state as it was, exactly when the peer may have connections at all and
no GET of the run is refused. -/
theorem upload_slots_iff (fl : Rounding) (haslist : List HashChunk) (config : Config)
    (es : List UploadEvent) :
    (Always (next fl haslist) Lawful (initUploadConn config) es ∧
      EachStep (next fl haslist) (RefusalKeepsState haslist) (initUploadConn config) es) ↔
    0 ≤ config.maxConn ∧
      EachStep (next fl haslist) (NoRefusal haslist) (initUploadConn config) es := by
  have rule : (initUploadConn config).Lawful →
      (Always (next fl haslist) Lawful (initUploadConn config) es ∧
        EachStep (next fl haslist) (RefusalKeepsState haslist) (initUploadConn config) es ↔
      EachStep (next fl haslist) (NoRefusal haslist) (initUploadConn config) es) :=
    always_iff_each (fun _ _ _ hd _ => next_distinct hd) (fun _ _ _ hd hl h => step_iff hd hl h)
      List.nodup_nil
  constructor
  · intro h
    have hstart := h.1.head
    exact ⟨hstart.le_max, (rule hstart).mp h⟩
  · rintro ⟨hmax, hno⟩
    exact (rule ⟨rfl, le_rfl, hmax, List.nodup_nil⟩).mpr hno

/-- One GET for a chunk the peer does not have: a slot is taken and no upload runs. -/
theorem refused_get_keeps_slot :
    ∃ up, exec (UploadConn.next .single []) (initUploadConn ⟨4, ⟨0, 1⟩⟩)
        [.get none 0 { Packet.zero with packetType := 2, payload := List.replicate 20 7 } ⟨0, 2⟩] =
          some up ∧
      up.concurrUploadNum = 1 ∧ up.uploadingList = [] ∧ ¬ up.Lawful := by
  refine ⟨_, rfl, rfl, rfl, ?_⟩
  rintro ⟨hcount, -⟩
  exact absurd hcount (by decide)

end P2P
