import P2P.Peer.DiskRuns
import P2P.Peer.GoodPass
import P2P.Peer.MakeChunks
import P2P.Transfer.Chunk

/-!
# A GET for one chunk

How the main loop gets one chunk from one peer. `Stage` says where the GET stands and `Progress`
what a pass of the loop does to it: the peer offers the chunk, its data packets come in any order,
and some come again; between them passes may bring nothing, as long as no timeout goes off.

* `Mem.progress_step`: the loop survives each such pass, and its lists are those of the next stage;
* `get_completes`: **a GET that is typed is completed**, from the start of the peer to the file.
-/

namespace P2P

open Lib

/-! ## The stages -/

/-- Where the GET stands; `since` is the time of the last packet sent or received for it. -/
inductive Stage
  | wanted
  | asked (since : Int)
  | loading (since : Int) (r : RecvState)
  | done

section
variable (config : Config) (addr : SockAddr) (c : Int) (h : Hash)

/-- The lists of the stage. -/
def Stage.conn : Stage → DownloadConn
  | .wanted => resetMydownload config [(c, h)]
  | .asked since => { resetMydownload config [(c, h)] with
      concurrDownloadNum := 1
      howmanyFound := 1
      getSentList := [{ createNode addr h c with timestamp := since }] }
  | .loading since r => { resetMydownload config [(c, h)] with
      concurrDownloadNum := 1
      howmanyFound := 1
      downloadingList :=
        [{ createNode addr h c with
            timestamp := since
            recver := some r }] }
  | .done => { resetMydownload config [(c, h)] with
      maxDownloadNum := 0
      howmanyFound := 1
      needlist := [] }

/-- The chunk is offered, and the peer not yet asked. -/
def offeredConn : DownloadConn :=
  { resetMydownload config [(c, h)] with
    howmanyFound := 1
    getTosendQuene := [createNode addr h c] }

end

namespace DownloadConn

variable {config : Config} {addr : SockAddr} {c : Int} {h : Hash} {d : DownloadConn} {now : Int}

/-! ## Offers -/

theorem fillTogetList_offered (config : Config) (addr : SockAddr) (c : Int) {hashes : List Hash}
    (hlen : hashes.length ≤ maxHashnumPerPack) (hmem : h ∈ hashes) :
    fillTogetList (hashPack 1 hashes) addr (Stage.wanted.conn config addr c h) =
      some (offeredConn config addr c h) := by
  have hfind : ∀ addr hash, findNode [createNode addr h c] hash =
      if hash = h then some (0, createNode addr h c) else none := by
    intro addr hash
    split
    case isTrue heq => rw [heq, Mydownload.findNode_createNode]
    case isFalse hne => exact findNode_none.mpr (by simpa [createNode] using hne)
  have hwanted : ∀ hash, fillHash addr hash (Stage.wanted.conn config addr c h) =
      if hash = h then offeredConn config addr c h else Stage.wanted.conn config addr c h := by
    intro hash
    have hneed : (Stage.wanted.conn config addr c h).needlist =
        [createNode config.myaddr h c] := rfl
    unfold fillHash
    rw [hneed, hfind]
    by_cases heq : hash = h
    · rw [if_pos heq, if_pos heq, heq]
      rfl
    · rw [if_neg heq, if_neg heq]
  have hoffered : ∀ hash, fillHash addr hash (offeredConn config addr c h) =
      offeredConn config addr c h := by
    intro hash
    have hneed : (offeredConn config addr c h).needlist = [createNode config.myaddr h c] := rfl
    have hqueue : (offeredConn config addr c h).getTosendQuene = [createNode addr h c] := rfl
    unfold fillHash
    rw [hneed, hqueue, hfind, hfind]
    by_cases heq : hash = h
    · rw [if_pos heq, if_pos heq]
      exact if_neg fun hne => hne.1 rfl
    · rw [if_neg heq]
  have hstay : ∀ hashes : List Hash, hashes.foldl (fun d hash => fillHash addr hash d)
      (offeredConn config addr c h) = offeredConn config addr c h := by
    intro hashes
    induction hashes with
    | nil => rfl
    | cons hash hashes ih => rw [List.foldl_cons, hoffered, ih]
  rw [fillTogetList_hashPack hlen, Option.some.injEq]
  clear hlen
  induction hashes with
  | nil => cases hmem
  | cons hash hashes ih =>
    rw [List.foldl_cons, hwanted]
    by_cases heq : hash = h
    · rw [if_pos heq, hstay]
    · rw [if_neg heq]
      exact ih (List.mem_of_ne_of_mem (fun h' => heq h'.symm) hmem)

theorem fillTogetList_withBehind (p : Packet) (b : UInt8) (addr : SockAddr) (d : DownloadConn) :
    fillTogetList (p.withBehind b) addr d = fillTogetList p addr d := by
  have hloop : ∀ n count d,
      fillLoop (p.withBehind b) addr n count d = fillLoop p addr n count d := by
    intro n
    induction n with
    | zero => exact fun _ _ => rfl
    | succ n ih =>
      intro count d
      unfold fillLoop
      rw [payloadHash, Packet.withBehind_payload, payloadHash]
      exact congrArg _ (funext fun hash => ih _ _)
  exact hloop _ 0 d

/-! ## Questions -/

theorem getSender_empty (now : Int) (hq : d.getTosendQuene = []) :
    getSender now d = some (d, 0, []) := by
  rcases getSender_spec now d with hnone | ⟨j, x, hj, -⟩
  · exact hnone
  · rw [hq] at hj
    cases hj

theorem checkTimeout_none (hlate : ∀ x ∈ d.getSentList, ¬ x.expired now) :
    checkTimeout now d = (d, 0) := by
  have hcount : d.getSentList.countP (HashChunk.expired now) = 0 :=
    List.countP_eq_zero.mpr hlate
  have hkept : d.getSentList.filter (fun x => !x.expired now) = d.getSentList :=
    List.filter_eq_self.mpr fun x hx => by simpa using hlate x hx
  rw [checkTimeout, hcount, hkept]
  simp

theorem getSender_offered (hconn : 0 < config.maxConn) (addr : SockAddr) (c : Int) (h : Hash)
    (now : Int) : ∃ gets, getSender now (offeredConn config addr c h) =
      some ((Stage.asked now).conn config addr c h, 1, gets) := by
  have hidle : (offeredConn config addr c h).idle (createNode addr h c) = true := rfl
  have hmax : (offeredConn config addr c h).maxDownloadNum -
      (offeredConn config addr c h).concurrDownloadNum = config.maxConn := Int.sub_zero _
  have hqueue : (offeredConn config addr c h).getTosendQuene = [createNode addr h c] := rfl
  have hsent : (offeredConn config addr c h).getSentList = [] := rfl
  refine ⟨[(addr, (formGET (createNode addr h c)).onWire)], ?_⟩
  rw [getSender, hmax]
  simp only [pickTosendGET, hqueue, pickLoop]
  rw [if_neg (by omega), if_pos hconn, if_pos hidle, hsent, List.any_nil, if_neg (by simp),
    sendPack_formGET]
  rfl

end DownloadConn

/-! ## The passes -/

/-- A pass without datagrams and without text. -/
structure Mem.Pass.Quiet (p : Mem.Pass) : Prop where
  arrival : p.arrival = none
  typed : p.typed = none

/-- A pass with the datagram of one packet, which the peer at `addr` has sent. -/
structure Mem.Pass.Brings (addr : SockAddr) (pack : Packet) (b : UInt8) (now : Int)
    (p : Mem.Pass) : Prop where
  arrival : ∃ a, p.arrival = some a ∧ a.received = datagram pack ∧ a.fromAddr = addr ∧
    a.behind 0 = b ∧ a.clock 0 = now
  typed : p.typed = none

/-- The timeout of the stage does not go off in the pass. -/
def Stage.InTime : Stage → Mem.Pass → Prop
  | .asked since, p => p.now₁ - since ≤ 5 * timeoutSec
  | .loading since _, p => p.downloads 0 - since ≤ 5 * timeoutSec
  | _, _ => True

/-- The receiver that the next data packet goes to. -/
def Stage.receiver (h : Hash) : Stage → Option RecvState
  | .asked _ => some (createRecver h)
  | .loading _ r => some r
  | _ => none

/-- What a pass does to the GET. A data packet may come out of order and more than once. -/
inductive Progress (addr : SockAddr) (h : Hash) (data : List UInt8) :
    Stage → Mem.Pass → Stage → Prop
  | wait {s : Stage} {p : Mem.Pass} : p.Quiet → s.InTime p → Progress addr h data s p s
  | offer {p : Mem.Pass} {hashes : List Hash} {b : UInt8} {now : Int} :
      hashes.length ≤ maxHashnumPerPack → h ∈ hashes → p.Brings addr (hashPack 1 hashes) b now →
      Progress addr h data .wanted p (.asked p.now₂)
  | data {s : Stage} {p : Mem.Pass} {r r' : RecvState} {i now : Int} {b : UInt8} :
      s.receiver h = some r → 1 ≤ i → i ≤ 512 → p.Brings addr (chunkPack data i) b now →
      r.next ((chunkPack data i).withBehind b) = some r' → r'.NPE ≤ 512 →
      (Stage.loading now r').InTime p → Progress addr h data s p (.loading now r')
  | last {s : Stage} {p : Mem.Pass} {r r' : RecvState} {i now : Int} {b : UInt8} :
      s.receiver h = some r → 1 ≤ i → i ≤ 512 → p.Brings addr (chunkPack data i) b now →
      r.next ((chunkPack data i).withBehind b) = some r' → r'.NPE = 513 →
      Progress addr h data s p .done

/-- What the passes do to the GET. -/
inductive Passes (addr : SockAddr) (h : Hash) (data : List UInt8) :
    Stage → List Mem.Pass → Stage → Prop
  | nil (s : Stage) : Passes addr h data s [] s
  | cons {s s' s'' : Stage} {p : Mem.Pass} {ps : List Mem.Pass} : Progress addr h data s p s' →
      Passes addr h data s' ps s'' → Passes addr h data s (p :: ps) s''

theorem Passes.snoc {addr : SockAddr} {h : Hash} {data : List UInt8} {s s' s'' : Stage}
    {ps : List Mem.Pass} {p : Mem.Pass} (hps : Passes addr h data s ps s')
    (hp : Progress addr h data s' p s'') : Passes addr h data s (ps ++ [p]) s'' := by
  induction hps with
  | nil s => exact .cons hp (.nil s'')
  | cons hstep _ ih => exact .cons hstep (ih hp)

/-- The passes bring the packets of the chunk in their order, and in time. -/
def InOrder (addr : SockAddr) (data : List UInt8) (ps : List Mem.Pass) : Prop :=
  ∀ (i : Nat) (p : Mem.Pass), ps[i]? = some p →
    ∃ b now, p.Brings addr (chunkPack data (1 + i)) b now ∧ p.downloads 0 - now ≤ 5 * timeoutSec

theorem InOrder.exists_take {addr : SockAddr} {data : List UInt8} {ps : List Mem.Pass}
    (hps : InOrder addr data ps) (h : Hash) (since : Int) :
    ∀ n : Nat, n ≤ ps.length → n < 512 → ∃ s r, Passes addr h data (.asked since) (ps.take n) s ∧
      s.receiver h = some r ∧ RecvState.HoldsFirst data n r := by
  intro n
  induction n with
  | zero => exact fun _ _ => ⟨_, _, .nil _, rfl, RecvState.holdsFirst_createRecver data h⟩
  | succ n ih =>
    intro hlen hn
    obtain ⟨s, r, hpasses, hr, hfirst⟩ := ih (by omega) (by omega)
    have hp : ps[n]? = some ps[n] := List.getElem?_eq_getElem (by omega)
    obtain ⟨b, now, hbrings, htime⟩ := hps n _ hp
    obtain ⟨r', hnext, hfirst', -⟩ := hfirst.exists_next (by omega) b
    have hnpe := hfirst'.npe
    refine ⟨.loading now r', r', ?_, rfl, hfirst'⟩
    rw [List.take_add_one, hp]
    exact hpasses.snoc (.data hr (by omega) (by omega) hbrings hnext (by omega) htime)

/-- **The packets in their order** complete the GET. -/
theorem InOrder.passes {addr : SockAddr} {data : List UInt8} {ps : List Mem.Pass}
    (hps : InOrder addr data ps) (hlen : ps.length = 512) (h : Hash) (since : Int) :
    Passes addr h data (.asked since) ps .done := by
  obtain ⟨s, r, hpasses, hr, hfirst⟩ := hps.exists_take h since 511 (by omega) (by decide)
  have hp : ps[511]? = some ps[511] := List.getElem?_eq_getElem (by omega)
  obtain ⟨b, now, hbrings, -⟩ := hps 511 _ hp
  obtain ⟨r', hnext, hfirst', -⟩ := hfirst.exists_next (by decide) b
  have hall := List.take_add_one (l := ps) (i := 511)
  rw [List.take_of_length_le (by omega), hp] at hall
  rw [hall]
  exact hpasses.snoc (.last hr (by decide) (by decide) hbrings hnext hfirst'.npe)

/-! ## The packets -/

theorem formed_chunkPack {data : List UInt8} (hlen : data.length = chunkSize) {i : Int}
    (h1 : 1 ≤ i) (h2 : i ≤ 512) : Formed (chunkPack data i) := by
  have hcs : chunkSize = 524288 := rfl
  have hpl : ploadLen = 1024 := rfl
  rw [chunkPack_eq h1 h2]
  refine .data i ?_ (le_refl 1024)
  rw [List.length_drop, hpl]
  omega

theorem Stage.next_data {config : Config} {addr : SockAddr} {c : Int} {h : Hash} {s : Stage}
    {r r' : RecvState} {pack : Packet} (now : Int) (hr : s.receiver h = some r)
    (hnext : r.next pack = some r') :
    (s.conn config addr c h).next config (.data pack addr now) =
      some ((Stage.loading now r').conn config addr c h) := by
  cases s with
  | asked since =>
    cases hr
    exact DownloadConn.next_data_first (x := { createNode addr h c with timestamp := since })
      rfl rfl rfl hnext
  | loading since r₁ =>
    cases hr
    exact DownloadConn.next_data_later
      (x := { createNode addr h c with
        timestamp := since
        recver := some r })
      rfl rfl rfl hnext
  | wanted => cases hr
  | done => cases hr

namespace Mem

variable {fl : Rounding} {shahash : List UInt8 → Hash} {config : Config}
  {haslist : List HashChunk} {peer peer' : Peer} {down down' : Downloads} {d d' : DownloadConn}
  {addr : SockAddr} {c : Int} {h : Hash} {data : List UInt8} {outputFd : OutFile}
  {need queue sent load : List (Nat × HashChunk)}

/-! ## What arrives -/

/-- After the packet the lists are those of `mid`, and nothing else has changed. -/
structure Arrived (peer : Peer) (mid : DownloadConn) (peer₁ : Peer) : Prop where
  lists : peer₁.mydownload.Represents mid
  file : peer₁.outputFd = peer.outputFd
  buffer : peer₁.recvBuf.bufLen = 0
  uploads : peer₁.myupload = peer.myupload

theorem exists_offered (fl : Rounding) (haslist : List HashChunk) {hashes : List Hash}
    {b : UInt8} {now : Int} {p : Pass} (hb : p.Brings addr (hashPack 1 hashes) b now)
    (hlen : hashes.length ≤ maxHashnumPerPack) (hmem : h ∈ hashes)
    (hlists : peer.mydownload.Represents (Stage.wanted.conn config addr c h))
    (hbuf : peer.recvBuf.bufLen = 0) :
    ∃ a peer₁, p.arrival = some a ∧ processInboundUdp fl haslist a peer = some peer₁ ∧
      Arrived peer (offeredConn config addr c h) peer₁ := by
  obtain ⟨a, ha, hrecv, rfl, -, -⟩ := hb.arrival
  obtain ⟨buf, hzero, hcall⟩ :=
    @processInboundUdp_one fl haslist peer _ (formed_ihave hlen) a hrecv hbuf
  have hoffer := DownloadConn.fillTogetList_offered config a.fromAddr c hlen hmem
  rw [← DownloadConn.fillTogetList_withBehind _ (a.behind 0)] at hoffer
  obtain ⟨down, hfill, hdown⟩ :=
    exists_of_rel (fillTogetList_rel ((hashPack 1 hashes).withBehind (a.behind 0)) a.fromAddr
      hlists) hoffer
  have hty : ((hashPack 1 hashes).withBehind (a.behind 0)).packetType = 1 := rfl
  refine ⟨a, { peer with
      recvBuf := buf
      mydownload := down }, ha, ?_, ⟨hdown, rfl, hzero, rfl⟩⟩
  rw [hcall, handlePacket, dealwithincomepack]
  simp only [hty, hfill]
  rfl

theorem exists_loading (fl : Rounding) (haslist : List HashChunk) {s : Stage} {r r' : RecvState}
    {i now : Int} {b : UInt8} {p : Pass} (hb : p.Brings addr (chunkPack data i) b now)
    (hlen : data.length = chunkSize) (h1 : 1 ≤ i) (h2 : i ≤ 512) (hr : s.receiver h = some r)
    (hnext : r.next ((chunkPack data i).withBehind b) = some r')
    (hlists : peer.mydownload.Represents (s.conn config addr c h))
    (hbuf : peer.recvBuf.bufLen = 0) :
    ∃ a peer₁, p.arrival = some a ∧ processInboundUdp fl haslist a peer = some peer₁ ∧
      Arrived peer ((Stage.loading now r').conn config addr c h) peer₁ := by
  obtain ⟨a, ha, hrecv, rfl, rfl, rfl⟩ := hb.arrival
  obtain ⟨buf, hzero, hcall⟩ :=
    @processInboundUdp_one fl haslist peer _ (formed_chunkPack hlen h1 h2) a hrecv hbuf
  have hstep := @Stage.next_data config a.fromAddr c h s r r' _ (a.clock 0) hr hnext
  rw [DownloadConn.next, Option.map_eq_some_iff] at hstep
  obtain ⟨⟨d, acks⟩, hdata, rfl⟩ := hstep
  obtain ⟨⟨down, acks'⟩, hmem, hdown, -⟩ :=
    exists_of_rel (dealwithData_rel ((chunkPack data i).withBehind (a.behind 0)) a.fromAddr
      (a.clock 0) hlists) hdata
  have hty : ((chunkPack data i).withBehind (a.behind 0)).packetType = 3 := rfl
  refine ⟨a, { peer with
      recvBuf := buf
      mydownload := down }, ha, ?_, ⟨hdown, rfl, hzero, rfl⟩⟩
  rw [hcall, handlePacket, dealwithincomepack]
  simp only [hty, hmem]
  rfl

end Mem

/-! ## The GET goes on -/

section
variable {shahash : List UInt8 → Hash} {config : Config} {addr : SockAddr} {c : Int} {h : Hash}
  {data : List UInt8} {s s' : Stage}

/-- The output file at the stage. -/
def Stage.file (shahash : List UInt8 → Hash) (c : Int) (h : Hash) (data : List UInt8) :
    Stage → OutFile
  | .done =>
    if shahash data = h then (OutFile.opened.lseek (chunkPos c 0)).write data else .opened
  | _ => .opened

/-- The receiver of the stage holds blocks of the chunk, but not all. -/
def Stage.Holds (h : Hash) (data : List UInt8) : Stage → Prop
  | .loading _ r => r.Holds data ∧ r.hash = h ∧ r.NPE ≤ 512
  | _ => True

theorem Stage.Holds.receiver {r : RecvState} (hs : s.Holds h data) (hr : s.receiver h = some r) :
    r.Holds data ∧ r.hash = h := by
  cases s with
  | asked since =>
    cases hr
    exact ⟨.createRecver data h, rfl⟩
  | loading since r₁ =>
    cases hr
    exact ⟨hs.1, hs.2.1⟩
  | wanted => cases hr
  | done => cases hr

/-- **A packet of the chunk** leaves blocks of the chunk. -/
theorem Stage.Holds.next {r r' : RecvState} {i : Int} {b : UInt8} (hs : s.Holds h data)
    (hr : s.receiver h = some r) (h1 : 1 ≤ i) (h2 : i ≤ 512)
    (hnext : r.next ((chunkPack data i).withBehind b) = some r') :
    r'.Holds data ∧ r'.hash = h := by
  obtain ⟨hholds, hhash⟩ := hs.receiver hr
  refine ⟨hholds.next h1 h2 hnext, ?_⟩
  rcases RecvState.next_cases hholds.inv hnext with ⟨-, rfl⟩ | ⟨-, hrec⟩
  · exact hhash
  · exact hrec.hash.trans hhash

theorem Stage.asks {now₁ : Int} (now₂ : Int)
    (hlate : ∀ x ∈ (s.conn config addr c h).getSentList, ¬ x.expired now₁) :
    getSender now₂ (checkTimeout now₁ (s.conn config addr c h)).1 =
      some (s.conn config addr c h, 0, []) := by
  have hqueue : (s.conn config addr c h).getTosendQuene = [] := by
    cases s <;> rfl
  rw [DownloadConn.checkTimeout_none hlate, DownloadConn.getSender_empty _ hqueue]

theorem Stage.InTime.not_expired {p : Mem.Pass} (hs : s.InTime p) :
    ∀ x ∈ (s.conn config addr c h).getSentList, ¬ x.expired p.now₁ := by
  intro x hx
  cases s with
  | asked since =>
    rw [List.mem_singleton.mp hx]
    simp only [InTime] at hs
    simp only [HashChunk.expired, decide_eq_true_eq]
    omega
  | _ => cases hx

theorem Stage.Holds.sweep {p : Mem.Pass} (hs : s.Holds h data) (ht : s.InTime p)
    (shahash : List UInt8 → Hash) (out : OutFile) (down : Mem.Downloads)
    (hd : down.Represents (s.conn config addr c h)) : ∃ down' visited,
      Mem.sweepDownloads shahash p.downloads down out = some (down', out, visited) ∧
        down'.Represents (s.conn config addr c h) := by
  cases s with
  | loading since r =>
    have hcs : chunkSize = 524288 := rfl
    have hopen : r.recvBytesnum ≠ chunkSize := by
      have := hs.1.bytes
      have := hs.2.2
      omega
    have hlate : ¬ HashChunk.expired (p.downloads 0)
        { createNode addr h c with
          timestamp := since
          recver := some r } := by
      simp only [InTime] at ht
      simp only [HashChunk.expired, decide_eq_true_eq]
      omega
    obtain ⟨visited, hrun⟩ := Mem.sweepDownloads_live shahash out hd rfl rfl hopen hlate
    exact ⟨down, visited, hrun, hd⟩
  | _ => exact ⟨down, [], Mem.sweepDownloads_nothing shahash _ out hd rfl, hd⟩

theorem sweep_complete {r : RecvState} {now : Int} (hr : r.Holds data) (hhash : r.hash = h)
    (hlen : data.length = chunkSize) (h513 : r.NPE = 513) {me' : Mydownload}
    (hsweep : Mydownload.sweep shahash 0
      ⟨(Stage.loading now r).conn config addr c h, .opened, [], []⟩ = some me') :
    me'.conn = Stage.done.conn config addr c h ∧
      me'.outputFd = Stage.done.file shahash c h data := by
  have hcs : chunkSize = 524288 := rfl
  have hbytes : r.recvBytesnum = chunkSize := by
    have := hr.bytes
    omega
  have hfinish : finishDownload 0 ((Stage.loading now r).conn config addr c h) =
      some (Stage.done.conn config addr c h) := by
    have hneed : deleteNodeByHash [createNode config.myaddr h c] h = some [] := by
      rw [deleteNodeByHash, Mydownload.findNode_createNode]
      rfl
    have hone : finishOneDownload 0 ((Stage.loading now r).conn config addr c h) =
        (deleteNodeByHash [createNode config.myaddr h c] h).map fun needlist =>
          { Stage.done.conn config addr c h with
            maxDownloadNum := config.maxConn
            needlist := needlist } := rfl
    rw [finishDownload, hone, hneed]
    rfl
  have hreap : afterReap shahash r c .opened = Stage.done.file shahash c h data := by
    obtain ⟨hwritten, hkept⟩ := Mydownload.afterReap_spec shahash r c .opened
    rw [Mydownload.joined_of_merge (hr.merge hlen h513), hhash] at hwritten hkept
    by_cases hsha : shahash data = h
    · rw [hwritten hlen hsha, Stage.file, if_pos hsha]
    · rw [hkept fun hall => hsha hall.2, Stage.file, if_neg hsha]
  have hrun : Mydownload.sweep shahash 0
      ⟨(Stage.loading now r).conn config addr c h, .opened, [], []⟩ =
        (finishDownload 0 ((Stage.loading now r).conn config addr c h)).map fun conn =>
          ⟨conn, afterReap shahash r c .opened, [],
            ((firstEntry [createNode config.myaddr h c] h).map HashChunk.entry).toList ++ []⟩ := by
    unfold Mydownload.sweep
    exact if_pos hbytes
  rw [hrun, hreap, hfinish, Option.map_some, Option.some.injEq] at hsweep
  rw [← hsweep]
  exact ⟨rfl, rfl⟩

end

/-! ## Runs -/

namespace Mem

variable {fl : Rounding} {shahash : List UInt8 → Hash} {config : Config}
  {haslist : List HashChunk} {peer : Peer} {addr : SockAddr} {c : Int} {h : Hash}
  {data : List UInt8} {s s' : Stage} {p : Pass} {ps : List Pass}

/-- The loop is at this stage of the GET, and serves nobody. -/
structure Peer.At (shahash : List UInt8 → Hash) (config : Config) (addr : SockAddr) (c : Int)
    (h : Hash) (data : List UInt8) (s : Stage) (peer : Peer) : Prop where
  lists : peer.mydownload.Represents (s.conn config addr c h)
  file : peer.outputFd = s.file shahash c h data
  receiver : s.Holds h data
  buffer : peer.recvBuf.bufLen = 0
  uploads : peer.myupload.uploadingList = none

theorem Stage.file_of_receiver {r : RecvState} (hr : s.receiver h = some r) :
    s.file shahash c h data = .opened := by
  cases s with
  | done => cases hr
  | _ => rfl

/-- **A pass** leads to the next stage. -/
theorem progress_step (fl : Rounding) (haslist : List HashChunk) (hconn : 0 < config.maxConn)
    (hlen : data.length = chunkSize) (hp : peer.At shahash config addr c h data s)
    (hstep : Progress addr h data s p s') :
    ∃ peer', peerPass fl shahash config haslist peer p = some peer' ∧
      peer'.At shahash config addr c h data s' := by
  cases hstep with
  | wait hquiet htime =>
    obtain ⟨down', hdown', hrun⟩ := exists_peerPass (.inl ⟨hquiet.arrival, rfl⟩)
      (.inl ⟨hquiet.typed, rfl⟩) hp.lists hp.uploads (Stage.asks p.now₂ htime.not_expired)
      (hp.receiver.sweep htime shahash peer.outputFd)
    exact ⟨_, hrun, hdown', hp.file, hp.receiver, hp.buffer, hp.uploads⟩
  | offer hhashes hmem hb =>
    obtain ⟨a, peer₁, ha, hcall, harr⟩ :=
      exists_offered fl haslist hb hhashes hmem hp.lists hp.buffer
    obtain ⟨gets, hget⟩ := DownloadConn.getSender_offered hconn addr c h p.now₂
    have hlate : ∀ x ∈ (offeredConn config addr c h).getSentList, ¬ x.expired p.now₁ :=
      fun x hx => absurd hx List.not_mem_nil
    have hask : P2P.getSender p.now₂ (P2P.checkTimeout p.now₁ (offeredConn config addr c h)).1 =
        some ((Stage.asked p.now₂).conn config addr c h, 1, gets) := by
      rw [DownloadConn.checkTimeout_none hlate, hget]
    have hsweep : ∀ down, down.Represents ((Stage.asked p.now₂).conn config addr c h) →
        ∃ down' visited, sweepDownloads shahash p.downloads down peer₁.outputFd =
          some (down', peer₁.outputFd, visited) ∧
            down'.Represents ((Stage.asked p.now₂).conn config addr c h) :=
      fun down hd => ⟨down, [], sweepDownloads_nothing shahash _ _ hd rfl, hd⟩
    obtain ⟨down', hdown', hrun⟩ := exists_peerPass (.inr ⟨a, ha, hcall⟩) (.inl ⟨hb.typed, rfl⟩)
      harr.lists (by rw [harr.uploads, hp.uploads]) hask hsweep
    exact ⟨_, hrun, hdown', harr.file.trans hp.file, trivial, harr.buffer,
      by rw [harr.uploads, hp.uploads]⟩
  | @data _ _ r r' i now b hr h1 h2 hb hnext hopen htime =>
    obtain ⟨a, peer₁, ha, hcall, harr⟩ :=
      exists_loading fl haslist hb hlen h1 h2 hr hnext hp.lists hp.buffer
    obtain ⟨hholds, hhash⟩ := hp.receiver.next hr h1 h2 hnext
    have hloading : (Stage.loading now r').Holds h data := ⟨hholds, hhash, hopen⟩
    obtain ⟨down', hdown', hrun⟩ := exists_peerPass (.inr ⟨a, ha, hcall⟩) (.inl ⟨hb.typed, rfl⟩)
      harr.lists (by rw [harr.uploads, hp.uploads]) (Stage.asks p.now₂ htime.not_expired)
      (hloading.sweep htime shahash peer₁.outputFd)
    exact ⟨_, hrun, hdown', (harr.file.trans hp.file).trans (Stage.file_of_receiver hr), hloading,
      harr.buffer, by rw [harr.uploads, hp.uploads]⟩
  | @last _ _ r r' i now b hr h1 h2 hb hnext h513 =>
    obtain ⟨a, peer₁, ha, hcall, harr⟩ :=
      exists_loading fl haslist hb hlen h1 h2 hr hnext hp.lists hp.buffer
    obtain ⟨hholds, hhash⟩ := hp.receiver.next hr h1 h2 hnext
    have hfile : peer₁.outputFd = .opened :=
      (harr.file.trans hp.file).trans (Stage.file_of_receiver hr)
    have hlate : ∀ x ∈ ((Stage.loading now r').conn config addr c h).getSentList,
        ¬ x.expired p.now₁ := fun x hx => absurd hx List.not_mem_nil
    have hsweep : ∀ down, down.Represents ((Stage.loading now r').conn config addr c h) →
        ∃ down' visited, sweepDownloads shahash p.downloads down peer₁.outputFd =
          some (down', Stage.done.file shahash c h data, visited) ∧
            down'.Represents (Stage.done.conn config addr c h) := by
      intro down hd
      have hbytes := hholds.bytes
      have hcs : chunkSize = 524288 := rfl
      let me : Mydownload := ⟨(Stage.loading now r').conn config addr c h, .opened, [], []⟩
      have hd : down.Represents me.conn := hd
      obtain ⟨down', me', visited, hsweep, hrun, hdown'⟩ := sweepDownloads_last shahash p.downloads
        hd rfl rfl rfl (by omega) rfl
      obtain ⟨hconn', hout⟩ := sweep_complete hholds hhash hlen h513 hsweep
      rw [hconn'] at hdown'
      rw [hout] at hrun
      exact ⟨down', visited, hfile ▸ hrun, hdown'⟩
    obtain ⟨down', hdown', hrun⟩ := exists_peerPass (.inr ⟨a, ha, hcall⟩) (.inl ⟨hb.typed, rfl⟩)
      harr.lists (by rw [harr.uploads, hp.uploads]) (Stage.asks p.now₂ hlate) hsweep
    exact ⟨_, hrun, hdown', rfl, trivial, harr.buffer, by rw [harr.uploads, hp.uploads]⟩

/-- **The passes** lead through the stages. -/
theorem passes_exec (fl : Rounding) (haslist : List HashChunk) (hconn : 0 < config.maxConn)
    (hlen : data.length = chunkSize) (hpasses : Passes addr h data s ps s') :
    ∀ {peer : Peer}, peer.At shahash config addr c h data s →
      ∃ peer', exec (peerPass fl shahash config haslist) peer ps = some peer' ∧
        peer'.At shahash config addr c h data s' := by
  induction hpasses with
  | nil s => exact fun hp => ⟨_, rfl, hp⟩
  | cons hstep _ ih =>
    intro peer hp
    obtain ⟨peer₁, hrun, hp₁⟩ := progress_step fl haslist hconn hlen hp hstep
    obtain ⟨peer', hrest, hp'⟩ := ih hp₁
    exact ⟨peer', (exec_step hrun _).trans hrest, hp'⟩

theorem Peer.At.owns_done (hp : peer.At shahash config addr c h data .done) :
    peer.mydownload.Owns [] [] [] [] := by
  obtain ⟨need, queue, sent, load, hs, hlists⟩ := hp.lists
  have hneed : need = [] := List.map_eq_nil_iff.mp (congrArg DownloadConn.needlist hlists)
  have hqueue : queue = [] := List.map_eq_nil_iff.mp (congrArg DownloadConn.getTosendQuene hlists)
  have hsent : sent = [] := List.map_eq_nil_iff.mp (congrArg DownloadConn.getSentList hlists)
  have hload : load = [] := List.map_eq_nil_iff.mp (congrArg DownloadConn.downloadingList hlists)
  rwa [hneed, hqueue, hsent, hload] at hs

/-! ## The command -/

/-- The user types the command, and the chunk file of that name is there. -/
structure Pass.Orders (names : List UInt8 × List UInt8) (f : ChunkListFile) (p : Pass) : Prop where
  arrival : p.arrival = none
  typed : ∃ t, p.typed = some t ∧ t.input = commandText names ∧
    t.fopen 0 names.1 = some f.text

theorem processUserInput_command {names : List UInt8 × List UInt8} (h₁ : PlainName names.1)
    (h₂ : PlainName names.2) :
    ∃ b call, P2P.processUserInput (commandText names) createUserbuf = some (b, [call]) ∧
      call.line = commandLine names := by
  have hhalf : halfUserbuf = 4096 := rfl
  have hwidth : nameWidth = 120 := rfl
  have hle₁ := h₁.le_width
  have hle₂ := h₂.le_width
  obtain ⟨hnl, hzero⟩ := not_mem_commandLine h₁ h₂
  have h0 : 0 ∉ [commandText names].flatten := by
    rw [List.flatten_singleton, commandText, List.mem_append, List.mem_singleton]
    exact not_or.mpr ⟨hzero, by decide⟩
  have hlen : (commandText names).length ≤ halfUserbuf := by
    simp only [commandText, commandLine, getLetters, List.length_append, List.length_cons,
      List.length_nil]
    omega
  have hfit : Session.HalfFull [] [commandText names] := by
    refine ⟨?_, trivial⟩
    rw [unended_of_not_mem List.not_mem_nil, List.length_nil, Nat.zero_add]
    exact hlen
  obtain ⟨s, hrun, hrec, hex, -⟩ := Session.exec_typed h0 hfit
  obtain ⟨t, hstep, hrest⟩ := exec_cons_eq_some.mp hrun
  cases hrest
  obtain ⟨⟨b, calls⟩, hcall, rfl⟩ := Option.map_eq_some_iff.mp hstep
  have hlines := hex.lines
  rw [hrec, List.flatten_singleton, commandText, lines_cons hnl,
    lines_of_not_mem List.not_mem_nil] at hlines
  obtain ⟨call, hcalls, hline⟩ := List.map_eq_singleton_iff.mp hlines
  have hcalls : calls = [call] := hcalls
  rw [hcalls] at hcall
  exact ⟨b, call, hcall, hline⟩

theorem order_step (fl : Rounding) (haslist : List HashChunk) {names : List UInt8 × List UInt8}
    {f : ChunkListFile} {d : DownloadConn} (h₁ : PlainName names.1) (h₂ : PlainName names.2)
    (hf : f.Readable) (hentries : f.entries = [(c, h)]) (horder : p.Orders names f)
    (hd : peer.mydownload.Represents d) (hbuf : peer.recvBuf.bufLen = 0)
    (huser : peer.userbuf = createUserbuf) (hup : peer.myupload.uploadingList = none) :
    ∃ peer', peerPass fl shahash config haslist peer p = some peer' ∧
      peer'.At shahash config addr c h data .wanted := by
  obtain ⟨t, ht, hinput, hopen⟩ := horder.typed
  obtain ⟨b, call, hcall, hline⟩ := processUserInput_command h₁ h₂
  have hwanted : resetMydownloadFile config (t.chunkid 0) f.text =
      some (Stage.wanted.conn config addr c h) := by
    rw [hf.reset, hentries]
    rfl
  obtain ⟨down, hreset, hdown⟩ :=
    exists_of_rel (resetMydownload_rel config (t.chunkid 0) f.text hd).1 hwanted
  have hread : processUserInput config t peer = some { peer with
      userbuf := b
      mydownload := down
      outputFd := .opened } := by
    rw [processUserInput, hinput, huser, hcall, Option.bind_some, List.zipIdx_singleton,
      List.map_singleton, exec_cons, handleUserInput, hline, handleUserInput_commandLine h₁ h₂]
    simp only [hopen, Option.bind_some, hreset, Option.map_some]
    rfl
  have hsweep : ∀ down, down.Represents (Stage.wanted.conn config addr c h) →
      ∃ down' visited, sweepDownloads shahash p.downloads down .opened =
        some (down', .opened, visited) ∧
          down'.Represents (Stage.wanted.conn config addr c h) :=
    fun down hd => ⟨down, [], sweepDownloads_nothing shahash _ _ hd rfl, hd⟩
  have hlate : ∀ x ∈ (Stage.wanted.conn config addr c h).getSentList, ¬ x.expired p.now₁ :=
    fun x hx => absurd hx List.not_mem_nil
  obtain ⟨down', hdown', hrun⟩ := @exists_peerPass fl shahash config haslist peer p _ _ _ _ _ _ _ _
    (.inl ⟨horder.arrival, rfl⟩) (.inr ⟨t, ht, hread⟩) hdown hup (Stage.asks p.now₂ hlate) hsweep
  exact ⟨_, hrun, hdown', rfl, trivial, hbuf, hup⟩

end Mem

open Mem in
/-- **A GET for one chunk is completed.** A peer that starts, with room for a download, and is asked
for the chunk file's only chunk, which is in the first 2 GiB, gets it from the first peer that
offers it: after the passes nothing is left in memory, and the file has been written with the chunk
at its place exactly if the hash is right. -/
theorem get_completes {fl : Rounding} {shahash : List UInt8 → Hash} {config : Config}
    {haslist : List HashChunk} {names : List UInt8 × List UInt8} {f : ChunkListFile} {c : Int}
    {h : Hash} {data : List UInt8} {addr : SockAddr} {p : Pass} {ps : List Pass}
    (hconn : 0 < config.maxConn) (h₁ : PlainName names.1) (h₂ : PlainName names.2)
    (hf : f.Readable) (hentries : f.entries = [(c, h)]) (h0 : 0 ≤ c) (hplace : c < 4096)
    (hlen : data.length = chunkSize) (horder : p.Orders names f)
    (hpasses : Passes addr h data .wanted ps .done) :
    ∃ peer, exec (peerPass fl shahash config haslist) (Peer.start config) (p :: ps) = some peer ∧
      peer.mydownload.Owns [] [] [] [] ∧ peer.outputFd.blocks =
        if shahash data = h then [((c * chunkSize).toNat, data)] else [] := by
  have hstart := represents_start config
  obtain ⟨peer₁, hstep, hp₁⟩ := @order_step shahash config _ addr c h data p fl haslist names f _
    h₁ h₂ hf hentries horder hstart.downloads rfl rfl rfl
  obtain ⟨peer, hrun, hp⟩ := passes_exec fl haslist hconn hlen hpasses hp₁
  refine ⟨peer, (exec_step hstep ps).trans hrun, hp.owns_done, ?_⟩
  rw [hp.file, Stage.file, apply_ite OutFile.blocks, Mydownload.write_lseek_blocks h0 hplace]
  rfl

/-! ## A chunk of zeros -/

/-- A pass with one datagram, and one with a line. -/
def bringing (addr : SockAddr) (pack : Packet) : Mem.Pass :=
  { arrival := some ⟨datagram pack, addr, fun _ => 0, fun _ => none, fun _ => 0⟩
    typed := none
    now₁ := 0
    now₂ := 0
    uploads := fun _ => ⟨fun _ => 0, 0, 0⟩
    downloads := fun _ => 0 }

def typing (input text : List UInt8) : Mem.Pass :=
  { arrival := none
    typed := some ⟨input, fun _ _ => some text, fun _ => 0⟩
    now₁ := 0
    now₂ := 0
    uploads := fun _ => ⟨fun _ => 0, 0, 0⟩
    downloads := fun _ => 0 }

theorem bringing_brings (addr : SockAddr) (pack : Packet) :
    (bringing addr pack).Brings addr pack 0 0 :=
  ⟨⟨_, rfl, rfl, rfl, rfl, rfl⟩, rfl⟩

theorem inOrder_bringing (addr : SockAddr) (data : List UInt8) (n : Nat) :
    InOrder addr data ((RecvState.chunkPacks data n).map (bringing addr)) := by
  intro i p hp
  rw [List.getElem?_map, RecvState.chunkPacks, List.getElem?_map] at hp
  obtain ⟨pack, hpack, rfl⟩ := Option.map_eq_some_iff.mp hp
  obtain ⟨k, hk, rfl⟩ := Option.map_eq_some_iff.mp hpack
  obtain ⟨hlt, hik⟩ := List.getElem?_eq_some_iff.mp hk
  rw [List.getElem_range] at hik
  subst hik
  have htime : (0 : Int) - 0 ≤ 5 * timeoutSec := by decide
  exact ⟨0, 0, bringing_brings addr _, htime⟩

/-- A chunk of zeros, and the hash it is given. -/
def zeros : List UInt8 := List.replicate chunkSize 0

def zeroHash : Hash := Vector.replicate hashSize 0

theorem zeros_length : zeros.length = chunkSize := List.length_replicate

/-- The user asks for the chunk of zeros. -/
def zerosOrder : Mem.Pass := typing (commandText ([97], [98])) (printedFile [zeroHash]).text

/-- A peer offers it, and sends its packets. -/
def zerosPasses : List Mem.Pass :=
  bringing ⟨0, 2⟩ (hashPack 1 [zeroHash]) ::
    (RecvState.chunkPacks zeros 512).map (bringing ⟨0, 2⟩)

theorem zerosOrder_orders : PlainName [97] ∧ PlainName [98] ∧ (printedFile [zeroHash]).Readable ∧
    (printedFile [zeroHash]).entries = [(0, zeroHash)] ∧
    zerosOrder.Orders ([97], [98]) (printedFile [zeroHash]) := by
  have hname : ∀ c, isspace c = false → c ≠ 0 → PlainName [c] := fun c hc h0 =>
    ⟨by simp, by simpa using hc, by simpa using h0.symm, (by decide : 1 ≤ nameWidth)⟩
  exact ⟨hname 97 (by decide) (by decide), hname 98 (by decide) (by decide),
    ChunkListFile.readable_printedFile _ (by decide), ChunkListFile.entries_printedFile _,
    ⟨rfl, _, rfl, rfl, rfl⟩⟩

theorem zeros_passes : Passes ⟨0, 2⟩ zeroHash zeros .wanted zerosPasses .done := by
  have hoffer : Progress ⟨0, 2⟩ zeroHash zeros .wanted
      (bringing ⟨0, 2⟩ (hashPack 1 [zeroHash])) (.asked 0) :=
    .offer (by decide) List.mem_cons_self (bringing_brings _ _)
  exact .cons hoffer
    ((inOrder_bringing _ _ _).passes (by simp [RecvState.chunkPacks]) zeroHash 0)

open Mem in
theorem exists_zerosRun : ∃ peer peer',
    peerPass .exact (fun _ => zeroHash) ⟨4, ⟨0, 1⟩⟩ [] (Peer.start ⟨4, ⟨0, 1⟩⟩) zerosOrder =
      some peer ∧
    peer.At (fun _ => zeroHash) ⟨4, ⟨0, 1⟩⟩ ⟨0, 2⟩ 0 zeroHash zeros .wanted ∧
    exec (peerPass .exact (fun _ => zeroHash) ⟨4, ⟨0, 1⟩⟩ []) peer zerosPasses = some peer' ∧
    peer'.At (fun _ => zeroHash) ⟨4, ⟨0, 1⟩⟩ ⟨0, 2⟩ 0 zeroHash zeros .done := by
  obtain ⟨h₁, h₂, hf, hentries, horder⟩ := zerosOrder_orders
  obtain ⟨peer, hstep, hp⟩ := @order_step (fun _ => zeroHash) ⟨4, ⟨0, 1⟩⟩ _ ⟨0, 2⟩ 0 zeroHash zeros
    zerosOrder .exact [] ([97], [98]) _ _ h₁ h₂ hf hentries horder
    (represents_start ⟨4, ⟨0, 1⟩⟩).downloads rfl rfl rfl
  obtain ⟨peer', hrun, hp'⟩ := passes_exec .exact [] (by decide) zeros_length zeros_passes hp
  exact ⟨peer, peer', hstep, hp, hrun, hp'⟩

theorem zerosPasses_typed : ∀ p ∈ zerosPasses, p.typed = none := by
  intro p hp
  rcases List.mem_cons.mp hp with rfl | hdata
  · rfl
  · obtain ⟨pack, -, rfl⟩ := List.mem_map.mp hdata
    rfl

open Mem in
/-- A chunk of zeros, in 512 packets. -/
theorem get_completes_zeros : ∃ peer,
    exec (peerPass .exact (fun _ => zeroHash) ⟨4, ⟨0, 1⟩⟩ []) (Peer.start ⟨4, ⟨0, 1⟩⟩)
      (zerosOrder :: zerosPasses) = some peer ∧
      peer.mydownload.Owns [] [] [] [] ∧ peer.outputFd.blocks = [(0, zeros)] := by
  obtain ⟨h₁, h₂, hf, hentries, horder⟩ := zerosOrder_orders
  have hdone := @get_completes .exact (fun _ => zeroHash) ⟨4, ⟨0, 1⟩⟩ [] ([97], [98])
    (printedFile [zeroHash]) 0 zeroHash zeros ⟨0, 2⟩ zerosOrder _ (by decide) h₁ h₂ hf hentries
    (by decide) (by decide) zeros_length horder zeros_passes
  rwa [if_pos rfl] at hdone

end P2P
