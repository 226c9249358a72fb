import P2P.Peer.UploadRuns

/-!
# The chunks a peer was given

`uploaded_list` is the memory of the upload side: a GET for a chunk that its sender was
given is not served again. `UploadConn.next_effect` says what one event does to the
connections and to the memory.

`served_once_iff`: only the latest upload to a port is looked up, so a chunk is served once
exactly if no admitted GET asks for an earlier one.
-/

namespace P2P

open Lib

/-- Which chunk goes to which peer. -/
def HashChunk.target (x : HashChunk) : SockAddr × Hash := (x.fromAddr, x.hash)

namespace UploadConn

variable {fl : Rounding} {haslist : List HashChunk} {up up' : UploadConn} {e : UploadEvent}

/-! ## What an event does to the lists -/

/-- A visit of the sweep before its timers: the window is sent from, if it has packets left. -/
def SentFrom (fl : Rounding) (time : Nat → Int) (w w₁ : Window) : Prop :=
  (w.LPS < w.LPR - 1 ∧ w.next fl (.send time) = some w₁) ∨ (¬ w.LPS < w.LPR - 1 ∧ w₁ = w)

/-- Everything an event can do to the two lists. -/
inductive Effect (fl : Rounding) (up : UploadConn) : UploadEvent → UploadConn → Prop
  /-- The GET is refused, or asks for a chunk that the peer does not have. -/
  | ignored {file : Option (List UInt8)} {now : Int} {pack : Packet} {addr : SockAddr}
      {up' : UploadConn} : up'.uploadingList = up.uploadingList →
      up'.uploadedList = up.uploadedList → Effect fl up (.get file now pack addr) up'
  | started {file : Option (List UInt8)} {now : Int} {pack : Packet} {addr : SockAddr}
      {up' : UploadConn} {hash : Hash} {x : HashChunk} {sw : Window} {r : Int} :
      up.free addr → payloadHash pack 0 = some hash →
      (∀ k y, findNodeByAddr up.uploadedList addr = some (k, y) → y.hash ≠ hash) →
      x.target = (addr, hash) → x.congWin = some sw →
      sendOnechunk file (createSW hash addr) = some (sw, r) →
      up'.uploadingList = x :: up.uploadingList → up'.uploadedList = up.uploadedList →
      Effect fl up (.get file now pack addr) up'
  | unknown {pack : Packet} {addr : SockAddr} {now : Int} :
      findNodeByAddr up.uploadingList addr = none → Effect fl up (.ack pack addr now) up
  | acked {pack : Packet} {addr : SockAddr} {now : Int} {up' : UploadConn} {k : Nat}
      {x y : HashChunk} {w w' : Window} :
      findNodeByAddr up.uploadingList addr = some (k, x) → x.congWin = some w →
      w.next fl (.ack pack) = some w' → y.target = x.target → y.congWin = some w' →
      up'.uploadingList = up.uploadingList.set k y → up'.uploadedList = up.uploadedList →
      Effect fl up (.ack pack addr now) up'
  | finished {time : Nat → Int} {now₁ now₂ : Int} {up' : UploadConn} {k : Nat} {x y : HashChunk}
      {w w₁ : Window} : up.uploadingList[k]? = some x → x.congWin = some w →
      SentFrom fl time w w₁ → w₁.LPA = w₁.LPR - 1 → y.target = x.target → y.congWin = some w₁ →
      up'.uploadingList = deleteNode up.uploadingList k → up'.uploadedList = y :: up.uploadedList →
      Effect fl up (.sweep time now₁ now₂ k) up'
  | swept {time : Nat → Int} {now₁ now₂ : Int} {up' : UploadConn} {k : Nat} {x y : HashChunk}
      {w w₁ w' : Window} : up.uploadingList[k]? = some x → x.congWin = some w →
      SentFrom fl time w w₁ → w₁.LPA ≠ w₁.LPR - 1 → w₁.next fl (.timeout now₁) = some w' →
      y.target = x.target → y.congWin = some w' → up'.uploadingList = up.uploadingList.set k y →
      up'.uploadedList = up.uploadedList → Effect fl up (.sweep time now₁ now₂ k) up'
  | gaveUp {time : Nat → Int} {now₁ now₂ : Int} {up' : UploadConn} {k : Nat} {x : HashChunk}
      {w w₁ : Window} : up.uploadingList[k]? = some x → x.congWin = some w →
      SentFrom fl time w w₁ → w₁.LPA ≠ w₁.LPR - 1 →
      up'.uploadingList = deleteNode up.uploadingList k → up'.uploadedList = up.uploadedList →
      Effect fl up (.sweep time now₁ now₂ k) up'
  | aborted {k : Nat} {up' : UploadConn} {x : HashChunk} : up.uploadingList[k]? = some x →
      up'.uploadingList = deleteNode up.uploadingList k → up'.uploadedList = up.uploadedList →
      Effect fl up (.abort k) up'

/-- A slot is free and the latest upload to the port, if any, was of another chunk. -/
structure Admits (up : UploadConn) (addr : SockAddr) (hash : Hash) : Prop where
  free : up.free addr
  fresh : ∀ k y, findNodeByAddr up.uploadedList addr = some (k, y) → y.hash ≠ hash

section
variable {file : Option (List UInt8)} {now : Int} {pack : Packet} {addr : SockAddr} {hash : Hash}

theorem dealwithGET_of_admits (hhash : payloadHash pack 0 = some hash) (h : up.Admits addr hash) :
    dealwithGET haslist file now pack addr up =
      (initUpload haslist file now hash addr up).map fun init => (init.1, some init.2) := by
  rw [dealwithGET, if_pos h.free, hhash, Option.bind_some]
  cases hfind : findNodeByAddr up.uploadedList addr with
  | none => rfl
  | some r => exact if_pos (h.fresh r.1 r.2 hfind)

theorem dealwithGET_of_not_admits (hhash : payloadHash pack 0 = some hash)
    (h : ¬ up.Admits addr hash) : dealwithGET haslist file now pack addr up = some (up, none) := by
  rw [dealwithGET]
  by_cases hfree : up.free addr
  · rw [if_pos hfree, hhash, Option.bind_some]
    cases hfind : findNodeByAddr up.uploadedList addr with
    | none => exact absurd ⟨hfree, fun k y hy => by rw [hfind] at hy; cases hy⟩ h
    | some r =>
      have hsame : ¬ r.2.hash ≠ hash := by
        refine fun hne => h ⟨hfree, fun k y hy => ?_⟩
        rw [hfind] at hy
        cases hy
        exact hne
      exact if_neg hsame
  · exact if_neg hfree

theorem effect_get {r : Option Int}
    (h : dealwithGET haslist file now pack addr up = some (up', r)) :
    Effect fl up (.get file now pack addr) up' := by
  cases hhash : payloadHash pack 0 with
  | none =>
    rw [dealwithGET, hhash] at h
    split at h
    · cases h
    · cases h
      exact .ignored rfl rfl
  | some hash =>
    by_cases hadm : up.Admits addr hash
    · rw [dealwithGET_of_admits hhash hadm, Option.map_eq_some_iff] at h
      obtain ⟨init, hinit, heq⟩ := h
      cases heq
      unfold initUpload at hinit
      split at hinit
      · rw [Option.map_eq_some_iff] at hinit
        obtain ⟨⟨sw, ret⟩, hsend, rfl⟩ := hinit
        exact .started hadm.free hhash hadm.fresh rfl rfl hsend rfl rfl
      · cases hinit
        exact .ignored rfl rfl
    · rw [dealwithGET_of_not_admits hhash hadm] at h
      cases h
      exact .ignored rfl rfl

theorem effect_ack (h : dealwithACK fl pack addr now up = some up') :
    Effect fl up (.ack pack addr now) up' := by
  unfold dealwithACK at h
  split at h
  · rename_i hnone
    cases h
    exact .unknown hnone
  · rename_i k conn hconn
    rw [Option.bind_eq_some_iff] at h
    obtain ⟨w, hw, h⟩ := h
    rw [Option.map_eq_some_iff] at h
    obtain ⟨⟨w', b⟩, hrun, rfl⟩ := h
    have hnext : w.next fl (.ack pack) = some w' := Window.next_ack hrun
    exact .acked (y := { conn with timestamp := now, congWin := some w' }) hconn hw hnext
      rfl rfl rfl
      rfl

end

theorem effect_sweep {time : Nat → Int} {now₁ now₂ : Int} {k : Nat}
    (h : sweepUpload fl time now₁ now₂ k up = some up') :
    Effect fl up (.sweep time now₁ now₂ k) up' := by
  obtain ⟨x, w, w₁, hx, hw, hsend, hcase⟩ := sweepUpload_cases h
  have hfrom : SentFrom fl time w w₁ := by
    split at hsend
    · rename_i hlt
      exact .inl ⟨hlt, hsend⟩
    · rename_i hlt
      cases hsend
      exact .inr ⟨hlt, rfl⟩
  rcases hcase with ⟨hdone, rfl⟩ | ⟨w', b, hopen, hrun, rfl | rfl⟩
  · exact .finished hx hw hfrom hdone (y := { x with congWin := some w₁ }) rfl rfl rfl rfl
  · exact .gaveUp hx hw hfrom hopen rfl rfl
  · exact .swept (y := { x with congWin := some w' }) hx hw hfrom hopen
      (Window.next_timeout hrun) rfl rfl rfl rfl

/-- **Every event**, as what it does to the two lists. -/
theorem next_effect (h : next fl haslist up e = some up') : Effect fl up e up' := by
  cases e with
  | get file now pack addr =>
    rw [next, Option.map_eq_some_iff] at h
    obtain ⟨⟨up₁, r⟩, h, rfl⟩ := h
    exact effect_get h
  | ack pack addr now => exact effect_ack h
  | sweep time now₁ now₂ k => exact effect_sweep h
  | abort k =>
    rw [next, abortUpload, Option.map_eq_some_iff] at h
    obtain ⟨x, hx, rfl⟩ := h
    exact .aborted hx rfl rfl

/-! ## No chunk twice -/

/-- What is being uploaded. -/
def active (up : UploadConn) : List (SockAddr × Hash) := up.uploadingList.map HashChunk.target

/-- What `uploaded_list` remembers. -/
def given (up : UploadConn) : List (SockAddr × Hash) := up.uploadedList.map HashChunk.target

/-- `init_upload` is not called for a GET for a chunk that its sender was given. -/
def ServedOnce (haslist : List HashChunk) (up : UploadConn) (e : UploadEvent)
    (_ : UploadConn) : Prop :=
  ∀ file now pack addr hash, e = .get file now pack addr → payloadHash pack 0 = some hash →
    (addr, hash) ∈ up.given → ∀ r, dealwithGET haslist file now pack addr up = some r → r.2 = none

/-- A GET for a chunk that its sender was given finds no free slot, or it is the chunk of the latest
upload to that port. -/
def AsksLatest (up : UploadConn) (e : UploadEvent) (_ : UploadConn) : Prop :=
  ∀ file now pack addr hash, e = .get file now pack addr → payloadHash pack 0 = some hash →
    (addr, hash) ∈ up.given →
      ¬ up.free addr ∨ (up.uploadedList.find? fun x => x.port == addr.sinPort).map HashChunk.hash =
        some hash

/-- A chunk that was given to a peer is not admitted again if no slot is free or the latest upload
to the port was of it. -/
theorem not_admits_iff {addr : SockAddr} {hash : Hash} (h : (addr, hash) ∈ up.given) :
    ¬ up.Admits addr hash ↔ ¬ up.free addr ∨
      (up.uploadedList.find? fun x => x.port == addr.sinPort).map HashChunk.hash = some hash := by
  obtain ⟨x, hx, hkey⟩ := List.mem_map.mp h
  obtain ⟨k, y, hy⟩ : ∃ k y, findNodeByAddr up.uploadedList addr = some (k, y) :=
    exists_findNodeByAddr hx
    (congrArg (fun key => SockAddr.sinPort key.1) hkey)
  rw [findNodeByAddr_find? hy, Option.map_some, Option.some.injEq]
  constructor
  · intro hnot
    by_contra hboth
    push Not at hboth
    refine hnot ⟨hboth.1, fun k' y' hy' => ?_⟩
    rw [hy] at hy'
    cases hy'
    exact hboth.2
  · rintro (hbusy | hsame) ⟨hfree, hfresh⟩
    · exact hbusy hfree
    · exact hfresh k y hy hsame

/-- **One GET**: `init_upload` is called for what a peer was given exactly if it is not the
latest. -/
theorem servedOnce_iff (h : next fl haslist up e = some up') :
    ServedOnce haslist up e up' ↔ AsksLatest up e up' := by
  refine forall₄_congr fun file now pack addr => forall₄_congr fun hash heq hhash hgiven => ?_
  subst heq
  rw [next, Option.map_eq_some_iff] at h
  obtain ⟨r, hr, -⟩ := h
  rw [← not_admits_iff hgiven]
  constructor
  · intro honce hadm
    have hnone := honce r hr
    rw [dealwithGET_of_admits hhash hadm, Option.map_eq_some_iff] at hr
    obtain ⟨init, -, rfl⟩ := hr
    cases hnone
  · intro hnot r' hr'
    rw [dealwithGET_of_not_admits hhash hnot] at hr'
    cases hr'
    rfl

/-- The connections and the memory name each peer and chunk once. -/
def Once (up : UploadConn) : Prop := (up.active ++ up.given).Nodup

theorem active_set {k : Nat} {x y : HashChunk} (hx : up.uploadingList[k]? = some x)
    (hy : y.target = x.target) (h : up'.uploadingList = up.uploadingList.set k y) :
    up'.active = up.active := by
  unfold active
  rw [h]
  exact map_set_key HashChunk.target hx hy

theorem active_deleteNode {k : Nat} {x : HashChunk} (hx : up.uploadingList[k]? = some x)
    (h : up'.uploadingList = deleteNode up.uploadingList k) :
    up.active.Perm (x.target :: up'.active) := by
  unfold active
  rw [h]
  exact ((perm_deleteNode hx).map HashChunk.target).symm

/-- **An event keeps the names apart** unless it starts what a peer was given. -/
theorem Once.next (hup : up.Once) (h : next fl haslist up e = some up')
    (honce : ServedOnce haslist up e up') : up'.Once := by
  unfold Once at *
  cases next_effect h with
  | ignored hl hd =>
    rw [active, given, hl, hd]
    exact hup
  | @started file now pack addr _ hash x sw r hfree hhash hfresh hkey hw hsend hl hd =>
    have hact : up'.active = (addr, hash) :: up.active := by
      rw [active, hl, List.map_cons, hkey]
      rfl
    have hgiven : up'.given = up.given := by rw [given, hd]; rfl
    rw [hact, hgiven, List.cons_append, List.nodup_cons, List.mem_append]
    refine ⟨?_, hup⟩
    rintro (hin | hin)
    · obtain ⟨y, hy, hykey⟩ := List.mem_map.mp hin
      refine (free_iff.mp hfree).2 (List.mem_map.mpr ⟨addr, List.mem_map.mpr ⟨y, hy, ?_⟩, rfl⟩)
      exact congrArg Prod.fst hykey
    · have hlatest := (servedOnce_iff h).mp honce file now pack addr hash rfl hhash hin
      exact (not_admits_iff hin).mpr hlatest ⟨hfree, hfresh⟩
  | unknown => exact hup
  | acked hfind _ _ hy _ hl hd =>
    rw [active_set (findNodeByAddr_spec hfind).1 hy hl, given, hd]
    exact hup
  | finished hx _ _ _ hy _ hl hd =>
    have hperm := active_deleteNode hx hl
    rw [given, hd, List.map_cons, hy]
    exact (List.perm_middle.trans ((hperm.append_right up.given).symm)).nodup_iff.mpr hup
  | swept hx _ _ _ _ hy _ hl hd =>
    rw [active_set hx hy hl, given, hd]
    exact hup
  | gaveUp hx _ _ _ hl hd =>
    rw [given, hd]
    exact (List.nodup_cons.mp (((active_deleteNode hx hl).append_right _).nodup_iff.mp hup)).2
  | aborted hx hl hd =>
    rw [given, hd]
    exact (List.nodup_cons.mp (((active_deleteNode hx hl).append_right _).nodup_iff.mp hup)).2

end UploadConn

open UploadConn in
/-- **No chunk is given to a peer twice**, and none is remembered twice, in exactly the runs in
which an admitted GET for what its sender was given asks for the latest upload to its port. -/
theorem served_once_iff (fl : Rounding) (haslist : List HashChunk) (config : Config)
    (es : List UploadEvent) :
    (Always (next fl haslist) (fun up => up.given.Nodup) (initUploadConn config) es ∧
      EachStep (next fl haslist) (ServedOnce haslist) (initUploadConn config) es) ↔
    EachStep (next fl haslist) AsksLatest (initUploadConn config) es := by
  have hsame : EachStep (next fl haslist) (ServedOnce haslist) (initUploadConn config) es ↔
      EachStep (next fl haslist) AsksLatest (initUploadConn config) es :=
    each_iff (f := next fl haslist) (W := fun _ => True) (fun _ _ _ _ _ => trivial)
      (fun _ _ _ _ h => servedOnce_iff h) trivial
  rw [← hsame, and_iff_right_iff_imp]
  intro honce
  have hstart : (initUploadConn config).Once := List.nodup_nil
  have keep : ∀ up e up', up.Once → next fl haslist up e = some up' →
      ServedOnce haslist up e up' → up'.Once ∧ ServedOnce haslist up e up' :=
    fun _ _ _ hup h hc => ⟨hup.next h hc, hc⟩
  have hrun := always_of_each keep hstart honce
  exact hrun.1.imp fun up hup => hup.of_append_right

/-! ## Forgotten chunks -/

namespace UploadConn

theorem dealwithACK_of_found {pack : Packet} {addr : SockAddr} {now : Int} {k : Nat}
    {conn : HashChunk} {w : Window} {r : Window × Int}
    (hconn : findNodeByAddr up.uploadingList addr = some (k, conn)) (hw : conn.congWin = some w)
    (hrun : uponReceiveACK fl pack w = some r) :
    dealwithACK fl pack addr now up = some { up with
      uploadingList :=
        up.uploadingList.set k { conn with timestamp := now, congWin := some r.1 } } := by
  rw [dealwithACK, hconn]
  simp only [hw, Option.bind_some, hrun, Option.map_some]

theorem sweepUpload_of_complete (fl : Rounding) (time : Nat → Int) (now₁ now₂ : Int) {k : Nat}
    {x : HashChunk} {w : Window} (hx : up.uploadingList[k]? = some x) (hw : x.congWin = some w)
    (hsent : ¬ w.LPS < w.LPR - 1) (hdone : w.LPA = w.LPR - 1) :
    sweepUpload fl time now₁ now₂ k up = some { up with
      uploadedList := x :: up.uploadedList
      uploadingList := deleteNode up.uploadingList k
      concurrUploadNum := up.concurrUploadNum - 1 } := by
  have hk : k < up.uploadingList.length := (List.getElem?_eq_some_iff.mp hx).1
  have hsame : ({ x with congWin := some w } : HashChunk) = x := by rw [← hw]
  rw [sweepUpload, hx, Option.bind_some, hw, Option.bind_some, if_neg hsent, Option.bind_some,
    hsame, if_pos hdone, moveNode, List.getElem?_set_self hk]
  simp only [Option.map_some, appendNode, deleteNode, List.eraseIdx_set_eq]

/-- An ACK of the last packet completes an upload that has sent nothing yet. -/
theorem uponReceiveACK_last (fl : Rounding) {w : Window} (hinv : w.Inv) (hlpa : w.LPA = 0)
    (hlps : w.LPS = 0) (hlpr : w.LPR = 513) :
    ∃ w' r, uponReceiveACK fl (formAckPack 512) w = some (w', r) ∧ w'.LPA = 512 ∧ w'.LPS = 512 ∧
      w'.LPR = 513 := by
  obtain ⟨p, w₁, w', -, hcount, hack, hres⟩ :=
    uponReceiveACK_spec fl hinv (show ((formAckPack 512).ackNum.toNat : Int) = 512 from rfl)
      (by omega) (by omega)
  have hfr := hcount.frame
  have hlpr' : w'.LPR = 513 := by rw [hack.sameData.lpr, hfr]; exact hlpr
  have hlps₁ : w₁.LPS = 0 := by rw [hfr]; exact hlps
  have hlpa₁ : w₁.LPA = 0 := by rw [hfr]; exact hlpa
  refine ⟨w', _, hres, ?_⟩
  cases hack with
  | jump => exact ⟨rfl, rfl, hlpr'⟩
  | advance => omega
  | duplicate => omega
  | loss => omega
  | stale => omega

/-- **A whole upload** by an idle peer: the GET, the ACK of the last packet, and the sweep. -/
theorem exec_upload (fl : Rounding) {addr : SockAddr} {hash : Hash} {pack : Packet}
    (hidle : up.uploadingList = []) (hslot : up.concurrUploadNum < up.maxUploadNum)
    (hhas : hash ∈ haslist.map HashChunk.hash) (hhash : payloadHash pack 0 = some hash)
    (hfresh : ∀ k y, findNodeByAddr up.uploadedList addr = some (k, y) → y.hash ≠ hash)
    (bytes : List UInt8) :
    ∃ x, exec (next fl haslist) up [.get (some bytes) 0 pack addr, .ack (formAckPack 512) addr 0,
        .sweep (fun _ => 0) 0 0 0] = some { up with uploadedList := x :: up.uploadedList } ∧
      x.target = (addr, hash) := by
  obtain ⟨k, c, hfind⟩ := exists_findNode hhas
  obtain ⟨w, r, hsend, hinv, hlpa, hlps, hcase⟩ := sendOnechunk_cases (some bytes) hash addr
  have hlpr : w.LPR = 513 := by
    rcases hcase with ⟨-, hnone, -⟩ | ⟨-, -, hlpr⟩
    · cases hnone
    · exact hlpr
  obtain ⟨w', b, hres, hlpa', hlps', hlpr'⟩ := uponReceiveACK_last fl hinv hlpa hlps hlpr
  have hfree : up.free addr := free_iff.mpr ⟨hslot, by simp [peers, hidle]⟩
  let x : HashChunk := { createNode addr hash c.chunkid with timestamp := 0, congWin := some w' }
  refine ⟨x, ?_, rfl⟩
  -- the side while it serves this upload
  let busy (x : HashChunk) : UploadConn :=
    { up with concurrUploadNum := up.concurrUploadNum + 1, uploadingList := [x] }
  have hget : next fl haslist up (.get (some bytes) 0 pack addr) =
      some (busy { x with congWin := some w }) := by
    rw [next, dealwithGET_of_admits hhash ⟨hfree, hfresh⟩, initUpload, hfind]
    simp only [hsend, hidle, Option.map_some]
    rfl
  have hackd : next fl haslist (busy { x with congWin := some w })
      (.ack (formAckPack 512) addr 0) = some (busy x) := by
    have hconn : findNodeByAddr (busy { x with congWin := some w }).uploadingList addr =
        some (0, { x with congWin := some w }) := findNodeByAddr_cons rfl []
    rw [next, dealwithACK_of_found hconn rfl hres]
    simp only [busy, List.set_cons_zero]
    rfl
  have hsweep : next fl haslist (busy x) (.sweep (fun _ => 0) 0 0 0) =
      some { up with uploadedList := x :: up.uploadedList } := by
    have hcount : up.concurrUploadNum + 1 - 1 = up.concurrUploadNum := Int.add_sub_cancel ..
    have hx : (busy x).uploadingList[0]? = some x := rfl
    have hw : x.congWin = some w' := rfl
    have hrun := sweepUpload_of_complete fl (fun _ => 0) 0 0 hx hw (by omega) (by omega)
    rw [next, hrun]
    simp only [busy, hcount, deleteNode, List.eraseIdx_cons_zero, hidle]
  rw [exec_step hget, exec_step hackd, exec_step hsweep, exec_nil]

theorem dealwithGET_starts {file : Option (List UInt8)} {now : Int} {pack : Packet}
    {addr : SockAddr} {hash : Hash} (hhash : payloadHash pack 0 = some hash)
    (hadm : up.Admits addr hash) (hhas : hash ∈ haslist.map HashChunk.hash) :
    ∃ up', dealwithGET haslist file now pack addr up = some (up', some 1) := by
  obtain ⟨k, c, hfind⟩ := exists_findNode hhas
  obtain ⟨w, r, hsend, -⟩ := sendOnechunk_cases file hash addr
  rw [dealwithGET_of_admits hhash hadm, initUpload, hfind]
  simp only [hsend, Option.map_some]
  exact ⟨_, rfl⟩

end UploadConn

/-- A GET for the chunk with hash bytes `b`. -/
def getOf (b : UInt8) : Packet :=
  { Packet.zero with packetType := 2, payload := List.replicate hashSize b }

/-- Two chunks are uploaded to one peer, then it asks for the first of them again. -/
theorem earlier_chunk_served_again :
    let hash (b : UInt8) : Hash := Vector.replicate hashSize b
    let haslist := [createNode ⟨0, 0⟩ (hash 1) 0, createNode ⟨0, 0⟩ (hash 2) 1]
    ∃ es up up', exec (UploadConn.next .single haslist) (initUploadConn ⟨4, ⟨0, 0⟩⟩) es = some up ∧
      (⟨1, 80⟩, hash 1) ∈ up.given ∧ payloadHash (getOf 1) 0 = some (hash 1) ∧
      dealwithGET haslist (some []) 0 (getOf 1) ⟨1, 80⟩ up = some (up', some 1) := by
  intro hash haslist
  let a : SockAddr := ⟨1, 80⟩
  let after (list : List HashChunk) : UploadConn := ⟨0, 4, [], list⟩
  have hidle : ∀ list, (after list).uploadingList = [] := fun _ => rfl
  have hslot : ∀ list, (after list).concurrUploadNum < (after list).maxUploadNum :=
    fun _ => show (0 : Int) < 4 by decide
  have hne : hash 2 ≠ hash 1 := by decide
  have hhas₁ : hash 1 ∈ haslist.map HashChunk.hash := by decide
  have hhas₂ : hash 2 ∈ haslist.map HashChunk.hash := by decide
  have hpay₁ : payloadHash (getOf 1) 0 = some (hash 1) := rfl
  have hpay₂ : payloadHash (getOf 2) 0 = some (hash 2) := rfl
  -- the latest upload to the port decides
  have hfresh : ∀ x list b c, x.target = (a, hash b) → hash b ≠ hash c →
      ∀ k y, findNodeByAddr (after (x :: list)).uploadedList a = some (k, y) → y.hash ≠ hash c := by
    intro x list b c hkey hbc k y hy
    rw [findNodeByAddr_cons (congrArg Prod.fst hkey)] at hy
    cases hy
    rw [show x.hash = hash b from congrArg Prod.snd hkey]
    exact hbc
  have hnew : ∀ k y, findNodeByAddr (after []).uploadedList a = some (k, y) → y.hash ≠ hash 1 :=
    fun _ _ h => nomatch h
  obtain ⟨x, hx, hxkey⟩ := UploadConn.exec_upload .single (hidle []) (hslot []) hhas₁ hpay₁ hnew []
  obtain ⟨z, hz, hzkey⟩ := UploadConn.exec_upload .single (hidle [x]) (hslot [x]) hhas₂ hpay₂
    (hfresh x [] 1 2 hxkey hne.symm) []
  have hadm : (after [z, x]).Admits a (hash 1) :=
    ⟨UploadConn.free_iff.mpr ⟨hslot [z, x], List.not_mem_nil⟩, hfresh z [x] 2 1 hzkey hne⟩
  obtain ⟨up', hserved⟩ := UploadConn.dealwithGET_starts hpay₁ hadm hhas₁
  exact ⟨_, after [z, x], up', exec_trans hx hz, List.mem_map.mpr ⟨x, by simp [after], hxkey⟩,
    hpay₁, hserved⟩

end P2P
