import P2P.Lib.Runs
import P2P.Peer.Hashlist

/-!
# The upload side

`Upload_conn` and its operations from `peer.c`. A GET that is admitted takes one of
`max_upload_num` slots; the slot is given back when the upload is complete or
aborted. `init_upload` takes the slot before it looks for the chunk, so a GET for a
chunk the peer does not have keeps it.
-/

namespace P2P

open Lib

structure UploadConn where
  concurrUploadNum : Int
  maxUploadNum : Int
  uploadingList : List HashChunk
  uploadedList : List HashChunk
  deriving DecidableEq

/-- `init_peerme`. -/
def initUploadConn (config : Config) : UploadConn :=
  { concurrUploadNum := 0, maxUploadNum := config.maxConn, uploadingList := [], uploadedList := [] }

/-! ## Starting and ending an upload -/

/-- `send_onechunk`, with the bytes `pread` finds at the chunk; `none` if the data file cannot be
opened. Behind the bytes read the buffer is zero. -/
def sendOnechunk (file : Option (List UInt8)) (sw : Window) : Option (Window × Int) :=
  match file with
  | some bytes =>
    let read := bytes.take chunkSize
    (p2pSender (read ++ List.replicate (chunkSize + 1 - read.length) 0) sw chunkSize).map
      fun (sw, ret) => (sw, if ret = chunkSize then 1 else -1)
  | none => some (sw, -1)

/-- `init_upload`: the slot is taken first. -/
def initUpload (haslist : List HashChunk) (file : Option (List UInt8)) (now : Int) (hash : Hash)
    (dst : SockAddr) (up : UploadConn) : Option (UploadConn × Int) :=
  let up := { up with concurrUploadNum := up.concurrUploadNum + 1 }
  match findNode haslist hash with
  | some (_, uploadingChunk) =>
    (sendOnechunk file (createSW hash dst)).map fun (sw, _) =>
      let new := { createNode dst hash uploadingChunk.chunkid with
        timestamp := now, congWin := some sw }
      ({ up with uploadingList := appendNode up.uploadingList new }, 1)
  | none => some (up, -1)

def abortUpload (k : Nat) (up : UploadConn) : Option UploadConn :=
  up.uploadingList[k]?.map fun _ =>
    { up with
      uploadingList := deleteNode up.uploadingList k
      concurrUploadNum := up.concurrUploadNum - 1 }

/-- `check_recvack_timeout` on node `k` of `uploading_list`. -/
def checkRecvackTimeout (now : Int) (k : Nat) (up : UploadConn) : Option (UploadConn × Int) :=
  up.uploadingList[k]?.bind fun curr =>
    if 8 * timeoutSec < now - curr.timestamp then (abortUpload k up).map fun up => (up, 1)
    else some (up, 0)

/-! ## Packets -/

/-- The GET is for this side: a slot is free and its sender is served nothing. -/
def UploadConn.free (up : UploadConn) (toaddr : SockAddr) : Bool :=
  up.concurrUploadNum < up.maxUploadNum && (findNodeByAddr up.uploadingList toaddr).isNone

/-- The GET branch of `dealwithincomepack`, with the result of `init_upload` where it is called. -/
def dealwithGET (haslist : List HashChunk) (file : Option (List UInt8)) (now : Int) (pack : Packet)
    (toaddr : SockAddr) (up : UploadConn) : Option (UploadConn × Option Int) :=
  if up.free toaddr then
    (payloadHash pack 0).bind fun hash =>
      let init := (initUpload haslist file now hash toaddr up).map fun (up, r) => (up, some r)
      match findNodeByAddr up.uploadedList toaddr with
      | none => init
      | some (_, ifUploaded) => if ifUploaded.hash ≠ hash then init else some (up, none)
  else some (up, none)

variable (fl : Rounding)

/-- The ACK branch of `dealwithincomepack`. -/
def dealwithACK (pack : Packet) (toaddr : SockAddr) (now : Int) (up : UploadConn) :
    Option UploadConn :=
  match findNodeByAddr up.uploadingList toaddr with
  | none => some up
  | some (k, conn) =>
    conn.congWin.bind fun w =>
      (uponReceiveACK fl pack w).map fun (w, _) =>
        { up with uploadingList :=
            up.uploadingList.set k { conn with timestamp := now, congWin := some w } }

/-! ## The main loop -/

/-- The body of the upload sweep for node `k`: send, then end the upload if it is complete, else
look at the timers. -/
def sweepUpload (time : Nat → Int) (now₁ now₂ : Int) (k : Nat) (up : UploadConn) :
    Option UploadConn :=
  up.uploadingList[k]?.bind fun curr =>
    curr.congWin.bind fun w =>
      (if w.LPS < w.LPR - 1 then (windowSender time w).map (·.1) else some w).bind fun w =>
        let up := { up with
          uploadingList := up.uploadingList.set k { curr with congWin := some w } }
        if w.LPA = w.LPR - 1 then
          (moveNode up.uploadedList up.uploadingList k).map fun (uploaded, uploading) =>
            { up with
              uploadedList := uploaded
              uploadingList := uploading
              concurrUploadNum := up.concurrUploadNum - 1 }
        else
          (checkDatapackTimeout fl now₁ w).bind fun (w, _) =>
            (checkRecvackTimeout now₂ k { up with
              uploadingList := up.uploadingList.set k { curr with congWin := some w } }).map (·.1)

inductive UploadEvent
  /-- A GET arrives; `file` is what the data file would give for the chunk. -/
  | get (file : Option (List UInt8)) (now : Int) (pack : Packet) (addr : SockAddr)
  | ack (pack : Packet) (addr : SockAddr) (now : Int)
  | sweep (time : Nat → Int) (now₁ now₂ : Int) (k : Nat)
  | abort (k : Nat)

def UploadConn.next (haslist : List HashChunk) (up : UploadConn) : UploadEvent → Option UploadConn
  | .get file now pack addr => (dealwithGET haslist file now pack addr up).map (·.1)
  | .ack pack addr now => dealwithACK fl pack addr now up
  | .sweep time now₁ now₂ k => sweepUpload fl time now₁ now₂ k up
  | .abort k => abortUpload k up

end P2P
