import P2P.Lib.Runs
import P2P.Peer.Hashlist

/-!
# The download side

`Download_conn` and its operations from `peer.c`. A chunk that is needed waits in
`get_tosend_quene` for its GET, in `get_sent_list` for the first data packet, and is
in `downloading_list` while its data arrives.

`DownloadConn.next` is one event of the download side, in the order the network,
the user and the main loop bring them. It is `none` where the event is not enabled
(no such connection) or the code follows a pointer it must not follow.
-/

namespace P2P

open Lib

structure DownloadConn where
  concurrDownloadNum : Int
  maxDownloadNum : Int
  howmanyFound : Int
  howmanyNeed : Int
  needlist : List HashChunk
  getTosendQuene : List HashChunk
  getSentList : List HashChunk
  downloadingList : List HashChunk
  deriving DecidableEq

/-- `init_peerme`. -/
def initDownloadConn (config : Config) : DownloadConn :=
  { concurrDownloadNum := 0, maxDownloadNum := config.maxConn, howmanyFound := 0, howmanyNeed := 0,
    needlist := [], getTosendQuene := [], getSentList := [], downloadingList := [] }

/-- `reset_mydownload` for a chunk file with these entries. -/
def resetMydownload (config : Config) (entries : List (Int × Hash)) : DownloadConn :=
  let needlist := parseHasneedList config.myaddr entries
  { concurrDownloadNum := 0
    maxDownloadNum := config.maxConn
    howmanyFound := 0
    howmanyNeed := needlist.length
    needlist := needlist
    getTosendQuene := []
    getSentList := []
    downloadingList := [] }

def completeMydownload (down : DownloadConn) : DownloadConn :=
  { down with maxDownloadNum := 0, getTosendQuene := [], getSentList := [], downloadingList := [] }

/-! ## IHave -/

/-- One hash of an IHave packet. -/
def fillHash (fromAddr : SockAddr) (findHash : Hash) (down : DownloadConn) : DownloadConn :=
  match findNode down.needlist findHash, findNode down.downloadingList findHash,
    findNode down.getSentList findHash with
  | some (_, ifIneed), none, none =>
    let node := createNode fromAddr findHash ifIneed.chunkid
    match findNode down.getTosendQuene findHash with
    | none => { down with
        getTosendQuene := appendNode down.getTosendQuene node
        howmanyFound := down.howmanyFound + 1 }
    | some (k, ifStored) =>
      -- the peer stored is busy: move the chunk to another one
      if fromAddr.sinPort ≠ ifStored.fromAddr.sinPort ∧
          ((findNodeByAddr down.downloadingList ifStored.fromAddr).isSome ∨
            (findNodeByAddr down.getSentList ifStored.fromAddr).isSome) then
        { down with getTosendQuene := appendNode (deleteNode down.getTosendQuene k) node }
      else down
  | _, _, _ => down

/-- The loop of `fill_toget_list` with `n` hashes left. -/
def fillLoop (ihavPack : Packet) (fromAddr : SockAddr) :
    Nat → Nat → DownloadConn → Option DownloadConn
  | 0, _, down => some down
  | n + 1, count, down =>
    (payloadHash ihavPack count).bind fun findHash =>
      fillLoop ihavPack fromAddr n (count + 1) (fillHash fromAddr findHash down)

def fillTogetList (ihavPack : Packet) (fromAddr : SockAddr) (down : DownloadConn) :
    Option DownloadConn :=
  fillLoop ihavPack fromAddr ihavPack.chunkhashNum.toNat 0 down

/-! ## GET -/

/-- No GET and no data for five timeouts. -/
def HashChunk.expired (now : Int) (x : HashChunk) : Bool := 5 * timeoutSec < now - x.timestamp

/-- `check_timeout` on `get_sent_list`. -/
def checkTimeout (now : Int) (down : DownloadConn) : DownloadConn × Int :=
  let count : Int := down.getSentList.countP (HashChunk.expired now)
  ({ down with
      getSentList := down.getSentList.filter fun x => !x.expired now
      concurrDownloadNum := down.concurrDownloadNum - count
      howmanyFound := down.howmanyFound - count }, count)

def formGET (hashtoget : HashChunk) : Packet :=
  { Packet.zero with
    packetType := 2
    hdLen := headerLen.toUInt16
    magicNum := 15441
    versionNum := 1
    seqNum := 1
    packLen := UInt16.ofNat (headerLen + hashSize)
    payload := hashtoget.hash.toList }

/-- The peer of a node is neither asked nor serving. -/
def DownloadConn.idle (down : DownloadConn) (x : HashChunk) : Bool :=
  (findNodeByAddr down.getSentList x.fromAddr).isNone &&
    (findNodeByAddr down.downloadingList x.fromAddr).isNone

/-- The loop of `pick_tosend_GET` at node `k` of the queue, with nothing picked yet.

A node picked becomes the head of `get_sent_list`, so the walk goes on with the nodes that list had
before. `none` if one of them were picked too, which `move_node` would look for in the queue. -/
def pickLoop (now : Int) (down : DownloadConn) (maxpickNum : Int) :
    Nat → List HashChunk → Option (DownloadConn × Int × List (SockAddr × Packet))
  | _, [] => some (down, 0, [])
  | k, curr :: rest =>
    if 0 < maxpickNum then
      if down.idle curr then
        if 1 < maxpickNum ∧ down.getSentList.any down.idle then none
        else
          (sendPack (formGET curr)).map fun getPack =>
            ({ down with
                getSentList := appendNode down.getSentList { curr with timestamp := now }
                getTosendQuene := deleteNode down.getTosendQuene k }, 1, [(curr.fromAddr, getPack)])
      else pickLoop now down maxpickNum (k + 1) rest
    else some (down, 0, [])

def pickTosendGET (now : Int) (down : DownloadConn) (maxpickNum : Int) :
    Option (DownloadConn × Int × List (SockAddr × Packet)) :=
  pickLoop now down maxpickNum 0 down.getTosendQuene

/-- `GET_sender`: the new state, the number of GETs sent and the packets with their receivers. -/
def getSender (now : Int) (down : DownloadConn) :
    Option (DownloadConn × Int × List (SockAddr × Packet)) :=
  let maxSend := down.maxDownloadNum - down.concurrDownloadNum
  if maxSend = 0 then some (down, 0, [])
  else
    (pickTosendGET now down maxSend).map fun (down, currDown, gets) =>
      ({ down with concurrDownloadNum := down.concurrDownloadNum + currDown }, currDown, gets)

/-- The main loop's test for asking all peers again, after `GET_sender` returned `sent`. -/
def DownloadConn.Rebroadcasts (down : DownloadConn) (sent : Int) : Prop :=
  sent = 0 ∧ down.howmanyFound < down.howmanyNeed ∧
    down.concurrDownloadNum < down.maxDownloadNum ∧ down.concurrDownloadNum = 0

/-! ## Data -/

/-- `init_download` on node `k` of `get_sent_list`. -/
def initDownload (now : Int) (k : Nat) (downConn : HashChunk) (down : DownloadConn) :
    DownloadConn :=
  { down with
    downloadingList := appendNode down.downloadingList
      { downConn with timestamp := now, recver := some (createRecver downConn.hash) }
    getSentList := deleteNode down.getSentList k }

/-- `upon_receiving_datapack` on the connection at node `k` of `downloading_list`. -/
def receiveOn (pack : Packet) (k : Nat) (down : DownloadConn) :
    Option (DownloadConn × List Packet) :=
  down.downloadingList[k]?.bind fun conn =>
    conn.recver.bind fun rev =>
      (uponReceivingDatapack pack rev).map fun (rev, acks) =>
        ({ down with
            downloadingList := down.downloadingList.set k { conn with recver := some rev } }, acks)

/-- The DATA branch of `dealwithincomepack`: the new state and the ACKs sent. -/
def dealwithData (pack : Packet) (toaddr : SockAddr) (now : Int) (down : DownloadConn) :
    Option (DownloadConn × List Packet) :=
  match findNodeByAddr down.downloadingList toaddr with
  | some (k, conn) =>
    receiveOn pack k { down with
      downloadingList := down.downloadingList.set k { conn with timestamp := now } }
  | none =>
    match findNodeByAddr down.getSentList toaddr with
    | some (k, conn) => receiveOn pack 0 (initDownload now k conn down)
    | none => some (down, [])

/-! ## The end of a download -/

/-- `finish_one_download` on node `k` of `downloading_list`. -/
def finishOneDownload (k : Nat) (down : DownloadConn) : Option DownloadConn :=
  down.downloadingList[k]?.bind fun todel =>
    (deleteNodeByHash down.needlist todel.hash).map fun needlist =>
      { down with
        needlist := needlist
        downloadingList := deleteNode down.downloadingList k
        concurrDownloadNum := down.concurrDownloadNum - 1 }

/-- What the main loop does with a download finished: the GET is complete when nothing is needed any
more. -/
def finishDownload (k : Nat) (down : DownloadConn) : Option DownloadConn :=
  (finishOneDownload k down).map fun down =>
    if down.needlist = [] then completeMydownload down else down

/-- `check_recvdata_timeout` on node `k` of `downloading_list`. -/
def checkRecvdataTimeout (now : Int) (k : Nat) (down : DownloadConn) :
    Option (DownloadConn × Int) :=
  down.downloadingList[k]?.map fun curr =>
    if curr.expired now then
      ({ down with
          downloadingList := deleteNode down.downloadingList k
          howmanyFound := down.howmanyFound - 1
          concurrDownloadNum := down.concurrDownloadNum - 1 }, 1)
    else (down, 0)

/-! ## The machine -/

inductive DownloadEvent
  /-- The user types GET for a chunk file with these entries. -/
  | reset (entries : List (Int × Hash))
  | ihave (pack : Packet) (addr : SockAddr)
  | getSender (now : Int)
  | checkTimeout (now : Int)
  | data (pack : Packet) (addr : SockAddr) (now : Int)
  | finish (k : Nat)
  | recvTimeout (now : Int) (k : Nat)

def DownloadConn.next (config : Config) (down : DownloadConn) : DownloadEvent → Option DownloadConn
  | .reset entries => some (resetMydownload config entries)
  | .ihave pack addr => fillTogetList pack addr down
  | .getSender now => (P2P.getSender now down).map (·.1)
  | .checkTimeout now => some (P2P.checkTimeout now down).1
  | .data pack addr now => (dealwithData pack addr now down).map (·.1)
  | .finish k => finishDownload k down
  | .recvTimeout now k => (checkRecvdataTimeout now k down).map (·.1)

end P2P
