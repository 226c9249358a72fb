import P2P.Peer.Dispatch
import P2P.Peer.DiscoveryHeap
import P2P.Peer.SweepHeap
import P2P.Peer.UploadHeap
import P2P.Peer.UserCommand

/-!
# The main loop

One pass of the loop of `peer_run`, in memory: a datagram if the socket is readable, a line of text
if the user has typed, the timeouts and GETs of the download side, and the two sweeps. What the
network, the user, the files and the clocks give to a pass is `Pass`; `none` is a pass that the
peer does not survive.

* `Mem.handlePacket_runs`, `Mem.handleUserInput_runs`: what one packet and one line do to the lists;
* `Mem.peerPass_runs`: **a pass that survives** is a run of the two machines of `P2P.Peer.Disk` and
  `P2P.Peer.Upload` side by side, in which a download is finished only as the last one needed, and
  the memory then represents the lists they make.
-/

namespace P2P

open Lib

namespace Mem

/-! ## The loop -/

/-- `me` and the two buffers of `peer_run`. The chunks the peer has never change, and the two sides
keep their nodes apart. -/
structure Peer where
  mydownload : Downloads
  outputFd : OutFile
  myupload : Uploads
  recvBuf : Buf
  userbuf : UserIobuf

/-- `init_peerme`, and the buffers at the start of `peer_run`. -/
def Peer.start (config : Config) : Peer where
  mydownload := {
    heap := ⟨[]⟩
    concurrDownloadNum := 0
    maxDownloadNum := config.maxConn
    howmanyFound := 0
    howmanyNeed := 0
    needlist := none
    getTosendQuene := none
    getSentList := none
    downloadingList := none }
  outputFd := .opened
  myupload := {
    heap := ⟨[]⟩
    concurrUploadNum := 0
    maxUploadNum := config.maxConn
    uploadingList := none
    uploadedList := none }
  recvBuf := Buf.empty
  userbuf := createUserbuf

/-- A packet, and what it finds: the data file for the chunk of a GET, and the time. -/
structure Incoming where
  pack : Packet
  file : Option (List UInt8)
  now : Int

/-- What the socket gives: the result of `spiffy_recvfrom`, the sender, and what each packet taken
off the buffer finds, with the byte that `malloc` adds to its payload. -/
structure Arrival where
  received : Option (List UInt8)
  fromAddr : SockAddr
  behind : Nat → UInt8
  file : Nat → Option (List UInt8)
  clock : Nat → Int

/-- A line, the files `fopen` finds, and the value of `chunkid` before it is set. -/
structure TypedLine where
  line : List UInt8
  fopen : List UInt8 → Option (List UInt8)
  chunkid : Int

/-- What the user gives: the result of `read`, and what each line finds. -/
structure Typed where
  input : List UInt8
  fopen : Nat → List UInt8 → Option (List UInt8)
  chunkid : Nat → Int

/-- What one pass is given. -/
structure Pass where
  arrival : Option Arrival
  typed : Option Typed
  now₁ : Int
  now₂ : Int
  uploads : Nat → Visit
  downloads : Nat → Int

section
variable (fl : Rounding) (shahash : List UInt8 → Hash) (config : Config) (haslist : List HashChunk)

/-- `dealwithincomepack`. -/
def dealwithincomepack (file : Option (List UInt8)) (now : Int) (pack : Packet) (toaddr : SockAddr)
    (peer : Peer) : Option (Peer × List Packet) :=
  if pack.packetType = 0 then (ihavSender pack haslist).map fun ms => (peer, ms)
  else if pack.packetType = 1 then
    (fillTogetList pack toaddr peer.mydownload).map fun down =>
      ({ peer with mydownload := down }, [])
  else if pack.packetType = 2 then
    (dealwithGET haslist file now pack toaddr peer.myupload).map fun r =>
      ({ peer with myupload := r.1 }, [])
  else if pack.packetType = 3 then
    (dealwithData pack toaddr now peer.mydownload).map fun r =>
      ({ peer with mydownload := r.1 }, r.2)
  else if pack.packetType = 4 then
    (dealwithACK fl pack toaddr now peer.myupload).map fun up => ({ peer with myupload := up }, [])
  else some (peer, [])

/-- The call for a packet. -/
def handlePacket (toaddr : SockAddr) (peer : Peer) (e : Incoming) : Option Peer :=
  (dealwithincomepack fl haslist e.file e.now e.pack toaddr peer).map (·.1)

/-- The packets that a receive makes complete, and the buffer they leave. -/
def receivePackets (received : Option (List UInt8)) (b : Buf) : Option (List Packet × Buf) :=
  (recvInto b received).bind fun b =>
    match extractLoop (buflen2 + 1) b with
    | .exited xs b => (xs.mapM Extraction.pack).map fun packs => (packs, b)
    | _ => none

/-- `process_inbound_udp`. The calls do not see the buffer, so they are made after the loop. -/
def processInboundUdp (a : Arrival) (peer : Peer) : Option Peer :=
  (receivePackets a.received peer.recvBuf).bind fun r =>
    exec (handlePacket fl haslist a.fromAddr) { peer with recvBuf := r.2 }
      (r.1.zipIdx.map fun e => ⟨e.1.withBehind (a.behind e.2), a.file e.2, a.clock e.2⟩)

/-- `handle_user_input`: a GET reads the chunk file and opens the output file. -/
def handleUserInput (peer : Peer) (e : TypedLine) : Option Peer :=
  match P2P.handleUserInput e.line with
  | none => some peer
  | some names =>
    (e.fopen names.1).bind fun text =>
      (resetMydownload config e.chunkid text peer.mydownload).map fun down =>
        { peer with
          mydownload := down
          outputFd := .opened }

/-- `process_user_input`. The calls do not see the buffer. -/
def processUserInput (t : Typed) (peer : Peer) : Option Peer :=
  (P2P.processUserInput t.input peer.userbuf).bind fun r =>
    exec (handleUserInput config) { peer with userbuf := r.1 }
      (r.2.zipIdx.map fun e => ⟨e.1.line, t.fopen e.2, t.chunkid e.2⟩)

/-- The part of the pass before the sweeps: GETs that have timed out, new GETs, and the question to
all peers. -/
def askPeers (now₁ now₂ : Int) (down : Downloads) : Option Downloads :=
  (checkTimeout now₁ down).bind fun r =>
    (getSender now₂ r.1).bind fun s =>
      if s.2.1 = 0 ∧ s.1.howmanyFound < s.1.howmanyNeed ∧
          s.1.concurrDownloadNum < s.1.maxDownloadNum ∧ s.1.concurrDownloadNum = 0 then
        (whoHasSender s.1.needlist s.1).map fun _ => s.1
      else some s.1

/-- A pass of the loop of `peer_run`. -/
def peerPass (peer : Peer) (p : Pass) : Option Peer :=
  (match p.arrival with
    | some a => processInboundUdp fl haslist a peer
    | none => some peer).bind fun peer =>
    (match p.typed with
      | some t => processUserInput config t peer
      | none => some peer).bind fun peer =>
      (askPeers p.now₁ p.now₂ peer.mydownload).bind fun down =>
        (sweepUploads fl p.uploads peer.myupload).bind fun u =>
          (sweepDownloads shahash p.downloads down peer.outputFd).map
            fun (d : Downloads × OutFile × List Nat) =>
            { peer with
              mydownload := d.1
              outputFd := d.2.1
              myupload := u.1 }

end

end Mem

/-! ## The machines it runs -/

/-- The download events of a loop that survives: a download is finished only as the last one
needed, and none is given up by the sweep. -/
def Mydownload.nextSurviving (shahash : List UInt8 → Hash) (config : Config) (me : Mydownload) :
    DownloadEvent → Option Mydownload
  | .finish k =>
    if me.conn.needlist.length = 1 then me.next shahash config (.finish k) else none
  | .recvTimeout _ _ => none
  | e => me.next shahash config e

/-- A file is neither opened nor written, and no download ends. -/
def DownloadEvent.KeepsFile : DownloadEvent → Prop
  | .reset _ | .finish _ | .recvTimeout _ _ => False
  | _ => True

/-- The download side and the upload side, each with its own events. -/
def peerNext (fl : Rounding) (shahash : List UInt8 → Hash) (config : Config)
    (haslist : List HashChunk) :
    Mydownload × UploadConn → DownloadEvent ⊕ UploadEvent → Option (Mydownload × UploadConn) :=
  beside (Mydownload.nextSurviving shahash config) (UploadConn.next fl haslist)

theorem UploadConn.Windows.next {fl : Rounding} {haslist : List HashChunk} {up up' : UploadConn}
    {e : UploadEvent} (hw : up.Windows) (h : UploadConn.next fl haslist up e = some up') :
    up'.Windows := by
  by_cases he : up.Enabled e
  · obtain ⟨up₁, hrun, hup₁⟩ := UploadConn.exists_next_of_enabled fl haslist hw he
    cases h.symm.trans hrun
    exact hup₁
  · rw [UploadConn.next_of_not_enabled hw he h]
    exact hw

namespace Mem

variable {fl : Rounding} {shahash : List UInt8 → Hash} {config : Config}
  {haslist : List HashChunk} {peer peer' : Peer} {v : Mydownload × UploadConn}
  {down down' : Downloads}

/-- The memory is made of the lists of the two machines, and the file is theirs. -/
structure Peer.Represents (peer : Peer) (v : Mydownload × UploadConn) : Prop where
  downloads : peer.mydownload.Represents v.1.conn
  file : v.1.outputFd = peer.outputFd
  uploads : peer.myupload.Represents v.2
  windows : v.2.Windows

/-- The event starts a GET only if `gets`. -/
def Allowed (gets : Prop) (e : DownloadEvent ⊕ UploadEvent) : Prop :=
  ∀ entries, e = .inl (.reset entries) → gets

/-- What leads to `peer'` is a run of the machines from `v`, which starts GETs only if `gets`. -/
def Runs (fl : Rounding) (shahash : List UInt8 → Hash) (config : Config)
    (haslist : List HashChunk) (gets : Prop) (v : Mydownload × UploadConn) (peer' : Peer) : Prop :=
  ∃ es v', (∀ e ∈ es, Allowed gets e) ∧
    exec (peerNext fl shahash config haslist) v es = some v' ∧ peer'.Represents v'

variable {gets : Prop}

theorem Runs.refl (hp : peer.Represents v) : Runs fl shahash config haslist gets v peer :=
  ⟨[], v, fun _ he => absurd he List.not_mem_nil, rfl, hp⟩

theorem Runs.trans (h : Runs fl shahash config haslist gets v peer)
    (h' : ∀ v₁, peer.Represents v₁ → Runs fl shahash config haslist gets v₁ peer') :
    Runs fl shahash config haslist gets v peer' := by
  obtain ⟨es, v₁, hok, hrun, hv₁⟩ := h
  obtain ⟨es', v', hok', hrun', hv'⟩ := h' v₁ hv₁
  exact ⟨es ++ es', v', List.forall_mem_append.mpr ⟨hok, hok'⟩, exec_trans hrun hrun', hv'⟩

theorem Runs.one (e : DownloadEvent ⊕ UploadEvent) (v' : Mydownload × UploadConn)
    (hok : Allowed gets e) (hnext : peerNext fl shahash config haslist v e = some v')
    (hp : peer'.Represents v') : Runs fl shahash config haslist gets v peer' :=
  ⟨[e], v', by simpa using hok, exec_step hnext [], hp⟩

theorem runs_download (e : DownloadEvent) {d' : DownloadConn} (hp : peer.Represents v)
    (he : e.KeepsFile) (hnext : v.1.conn.next config e = some d') (hd : down'.Represents d') :
    Runs fl shahash config haslist gets v { peer with mydownload := down' } := by
  have hstep : v.1.nextSurviving shahash config e = some { v.1 with conn := d' } := by
    cases e with
    | reset entries => cases he
    | finish k => cases he
    | recvTimeout now k => cases he
    | _ => exact congrArg (Option.map fun conn => { v.1 with conn := conn }) hnext
  refine .one (.inl e) ({ v.1 with conn := d' }, v.2) ?_ ?_
    ⟨hd, hp.file, hp.uploads, hp.windows⟩
  · rintro entries heq
    cases heq
    cases he
  · rw [peerNext, beside, hstep, Option.map_some]

theorem runs_upload (e : UploadEvent) {u' : UploadConn} {up' : Uploads} (hp : peer.Represents v)
    (hnext : UploadConn.next fl haslist v.2 e = some u') (hu : up'.Represents u') :
    Runs fl shahash config haslist gets v { peer with myupload := up' } := by
  refine .one (.inr e) (v.1, u') (fun _ heq => by cases heq) ?_
    ⟨hp.downloads, hp.file, hu, hp.windows.next hnext⟩
  rw [peerNext, beside, hnext, Option.map_some]

/-! ## A packet -/

/-- **A packet** is one event, or none. -/
theorem handlePacket_runs {toaddr : SockAddr} {e : Incoming} (hp : peer.Represents v)
    (h : handlePacket fl haslist toaddr peer e = some peer') :
    Runs fl shahash config haslist gets v peer' := by
  rw [handlePacket, Option.map_eq_some_iff] at h
  obtain ⟨⟨peer₁, ms⟩, h, rfl⟩ := h
  unfold dealwithincomepack at h
  split at h
  · -- WhoHas is answered from the chunks the peer has
    obtain ⟨_, -, heq⟩ := Option.map_eq_some_iff.mp h
    cases heq
    exact .refl hp
  split at h
  · obtain ⟨down, hfill, heq⟩ := Option.map_eq_some_iff.mp h
    cases heq
    obtain ⟨d', hd', hdown⟩ := rel_some (fillTogetList_rel e.pack toaddr hp.downloads) hfill
    exact runs_download (.ihave e.pack toaddr) hp trivial hd' hdown
  split at h
  · obtain ⟨r, hget, heq⟩ := Option.map_eq_some_iff.mp h
    cases heq
    obtain ⟨u', hu', hup, -⟩ :=
      rel_some (dealwithGET_rel haslist e.file e.now e.pack toaddr hp.uploads) hget
    refine runs_upload (.get e.file e.now e.pack toaddr) hp ?_ hup
    rw [UploadConn.next, hu', Option.map_some]
  split at h
  · obtain ⟨r, hdata, heq⟩ := Option.map_eq_some_iff.mp h
    cases heq
    obtain ⟨d', hd', hdown, -⟩ :=
      rel_some (dealwithData_rel e.pack toaddr e.now hp.downloads) hdata
    refine runs_download (.data e.pack toaddr e.now) hp trivial ?_ hdown
    rw [DownloadConn.next, hd', Option.map_some]
  split at h
  · obtain ⟨up, hack, heq⟩ := Option.map_eq_some_iff.mp h
    cases heq
    obtain ⟨u', hu', hup⟩ :=
      rel_some (dealwithACK_rel fl e.pack toaddr e.now hp.uploads) hack
    exact runs_upload (.ack e.pack toaddr e.now) hp hu' hup
  · cases h
    exact .refl hp

theorem processInboundUdp_runs {a : Arrival} (hp : peer.Represents v)
    (h : processInboundUdp fl haslist a peer = some peer') :
    Runs fl shahash config haslist gets v peer' := by
  unfold processInboundUdp at h
  obtain ⟨r, -, h⟩ := Option.bind_eq_some_iff.mp h
  have hp' : Peer.Represents { peer with recvBuf := r.2 } v :=
    ⟨hp.downloads, hp.file, hp.uploads, hp.windows⟩
  exact exec_refines (fun _ _ _ _ _ hp h => handlePacket_runs hp h) hp' h

/-! ## A line -/

theorem handleUserInput_runs {e : TypedLine} (hget : P2P.handleUserInput e.line ≠ none → gets)
    (hp : peer.Represents v) (h : handleUserInput config peer e = some peer') :
    Runs fl shahash config haslist gets v peer' := by
  unfold handleUserInput at h
  split at h
  case h_1 =>
    cases h
    exact .refl hp
  case h_2 names hnames =>
    obtain ⟨text, -, h⟩ := Option.bind_eq_some_iff.mp h
    obtain ⟨down, hreset, rfl⟩ := Option.map_eq_some_iff.mp h
    obtain ⟨hrel, hentries⟩ := resetMydownload_rel config e.chunkid text hp.downloads
    obtain ⟨d', hd', hdown⟩ := rel_some hrel hreset
    obtain ⟨entries, rfl⟩ := hentries d' hd'
    have hgets : gets := hget (by rw [hnames]; exact Option.some_ne_none names)
    exact .one (.inl (.reset entries)) _ (fun _ _ => hgets) rfl
      ⟨hdown, rfl, hp.uploads, hp.windows⟩

/-- The user's text makes a line complete that starts a GET. -/
def StartsGet (userbuf : UserIobuf) (t : Typed) : Prop :=
  ∃ b calls, P2P.processUserInput t.input userbuf = some (b, calls) ∧
    ∃ c ∈ calls, P2P.handleUserInput c.line ≠ none

theorem processUserInput_runs {t : Typed} (hget : StartsGet peer.userbuf t → gets)
    (hp : peer.Represents v) (h : processUserInput config t peer = some peer') :
    Runs fl shahash config haslist gets v peer' := by
  unfold processUserInput at h
  obtain ⟨r, hr, h⟩ := Option.bind_eq_some_iff.mp h
  have hp' : Peer.Represents { peer with userbuf := r.1 } v :=
    ⟨hp.downloads, hp.file, hp.uploads, hp.windows⟩
  refine exec_refines (fun _ _ e _ he hp h => handleUserInput_runs (fun hline => ?_) hp h) hp' h
  obtain ⟨c, hc, rfl⟩ := List.mem_map.mp he
  exact hget ⟨r.1, r.2, hr, c.1, List.fst_mem_of_mem_zipIdx hc, hline⟩

/-! ## The rest of the pass -/

/-- **Timeouts and GETs.** The question to all peers reads the lists and changes nothing. -/
theorem askPeers_runs {now₁ now₂ : Int} (hp : peer.Represents v)
    (h : askPeers now₁ now₂ peer.mydownload = some down') :
    Runs fl shahash config haslist gets v { peer with mydownload := down' } := by
  obtain ⟨down₁, count₁, hrun₁, hdown₁, -⟩ := checkTimeout_rel now₁ hp.downloads
  refine (runs_download (.checkTimeout now₁) hp trivial rfl hdown₁).trans
    fun v₁ hp₁ => ?_
  obtain ⟨down₂, d₂, count₂, trace, hrun₂, hget, hdown₂⟩ := getSender_rel now₂ hp₁.downloads
  have hnext : v₁.1.conn.next config (.getSender now₂) = some d₂ := by
    rw [DownloadConn.next, hget, Option.map_some]
  have hend : down' = down₂ := by
    unfold askPeers at h
    rw [hrun₁, Option.bind_some, hrun₂, Option.bind_some] at h
    split at h
    · obtain ⟨_, -, rfl⟩ := Option.map_eq_some_iff.mp h
      rfl
    · cases h
      rfl
  rw [hend]
  have hsend := @runs_download fl shahash config haslist _ v₁ down₂ gets (.getSender now₂) d₂ hp₁
    trivial hnext hdown₂
  exact hsend

theorem sweeps_runs {ticks : Nat → Visit} {clock : Nat → Int} {u : Uploads × List Nat}
    {d : Downloads × OutFile × List Nat} (hp : peer.Represents v)
    (hu : sweepUploads fl ticks peer.myupload = some u)
    (hd : sweepDownloads shahash clock peer.mydownload peer.outputFd = some d) :
    Runs fl shahash config haslist gets v { peer with
      mydownload := d.1
      outputFd := d.2.1
      myupload := u.1 } := by
  obtain ⟨es, w, hrun, hw⟩ := sweepUploads_exec fl haslist ticks hp.uploads hp.windows hu
  have hwin : w.Windows :=
    exec_invariant UploadConn.Windows (fun _ _ _ hs h => hs.next h) hp.windows hrun
  have hups : Runs fl shahash config haslist gets v { peer with myupload := u.1 } :=
    ⟨es.map Sum.inr, (v.1, w), by simp [Allowed], exec_inr v.1 hrun, hp.downloads, hp.file, hw,
      hwin⟩
  refine hups.trans fun v₁ hp₁ => ?_
  rcases sweepDownloads_exec config clock hp₁.downloads hp₁.file hd with
    ⟨hdown, hout⟩ | ⟨hone, k, me', hfinish, hdown, hout⟩
  · rw [hdown, hout]
    exact .refl hp₁
  · refine .one (.inl (.finish k)) (me', v₁.2) (fun _ heq => by cases heq) ?_
      ⟨hdown, hout, hp₁.uploads, hp₁.windows⟩
    rw [peerNext, beside, Mydownload.nextSurviving, if_pos hone, hfinish, Option.map_some]

theorem processInboundUdp_userbuf {a : Arrival}
    (h : processInboundUdp fl haslist a peer = some peer') : peer'.userbuf = peer.userbuf := by
  unfold processInboundUdp at h
  obtain ⟨r, -, h⟩ := Option.bind_eq_some_iff.mp h
  refine exec_invariant (fun p => p.userbuf = peer.userbuf) (fun s e t hs h => ?_) rfl h
  rw [handlePacket, Option.map_eq_some_iff] at h
  obtain ⟨⟨peer₁, ms⟩, h, rfl⟩ := h
  unfold dealwithincomepack at h
  repeat' split at h
  all_goals
    first
    | cases h; exact hs
    | obtain ⟨_, -, heq⟩ := Option.map_eq_some_iff.mp h; cases heq; exact hs

/-- The user's part of the pass starts a GET. -/
def Pass.StartsGet (peer : Peer) (p : Pass) : Prop :=
  ∃ t, p.typed = some t ∧ Mem.StartsGet peer.userbuf t

/-- **A pass that survives** is a run of the two machines. -/
theorem peerPass_runs {p : Pass} (hp : peer.Represents v)
    (h : peerPass fl shahash config haslist peer p = some peer') :
    Runs fl shahash config haslist (p.StartsGet peer) v peer' := by
  unfold peerPass at h
  obtain ⟨peer₁, harrival, h⟩ := Option.bind_eq_some_iff.mp h
  obtain ⟨peer₂, htyped, h⟩ := Option.bind_eq_some_iff.mp h
  obtain ⟨down, hask, h⟩ := Option.bind_eq_some_iff.mp h
  obtain ⟨u, hu, h⟩ := Option.bind_eq_some_iff.mp h
  obtain ⟨d, hd, rfl⟩ := Option.map_eq_some_iff.mp h
  have hpackets : Runs fl shahash config haslist (p.StartsGet peer) v peer₁ ∧
      peer₁.userbuf = peer.userbuf := by
    split at harrival
    · exact ⟨processInboundUdp_runs hp harrival, processInboundUdp_userbuf harrival⟩
    · cases harrival
      exact ⟨.refl hp, rfl⟩
  obtain ⟨hpackets, hbuf⟩ := hpackets
  have hlines : ∀ v₁, peer₁.Represents v₁ →
      Runs fl shahash config haslist (p.StartsGet peer) v₁ peer₂ := by
    intro v₁ hp₁
    split at htyped
    case h_1 t ht =>
      refine processUserInput_runs (fun hget => ⟨t, ht, ?_⟩) hp₁ htyped
      rwa [hbuf] at hget
    case h_2 =>
      cases htyped
      exact .refl hp₁
  refine (hpackets.trans hlines).trans fun v₂ hp₂ => ?_
  refine (askPeers_runs hp₂ hask).trans fun v₃ hp₃ => ?_
  have hsweeps := @sweeps_runs fl shahash config haslist _ v₃ (p.StartsGet peer) _ _ u d hp₃ hu hd
  exact hsweeps

theorem represents_start (config : Config) :
    (Peer.start config).Represents (initMydownload config, initUploadConn config) where
  downloads := by
    refine ⟨[], [], [], [], Heap.Lists.nil (fun i => ?_) (fun i => ?_), rfl⟩
    · cases i <;> rfl
    · cases i <;> rfl
  file := rfl
  uploads := by
    refine ⟨[], [], Heap.Lists.nil (fun i => ?_) (fun i => ?_), rfl⟩
    · cases i <;> rfl
    · cases i <;> rfl
  windows := fun x hx => absurd hx List.not_mem_nil

end Mem

end P2P
