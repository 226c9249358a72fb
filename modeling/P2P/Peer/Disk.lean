import P2P.Peer.DownloadRuns

/-!
# Writing the output file

`reap` from `sock_io.c` and the sweep of the main loop over `downloading_list`: the
chunk received is merged, checked against its hash and written at its place in the
output file, and the download is finished whatever `reap` returned.

`Mydownload` is the download side with its output file. `Mydownload.next` is
`DownloadConn.next` for every event but the sweep, which finishes a download only if
`CHUNK_SIZE` bytes were received (`Mydownload.next_conn`).
-/

namespace P2P

open Lib

/-! ## The file -/

structure OutFile where
  /-- The file offset. -/
  pos : Nat
  /-- What was written and where, the last block first. -/
  blocks : List (Nat × List UInt8)
  deriving DecidableEq

/-- A file just opened. -/
def OutFile.opened : OutFile := ⟨0, []⟩

/-- `lseek` from the start of the file; a negative offset is refused. -/
def OutFile.lseek (out : OutFile) (offset : Int) : OutFile :=
  if 0 ≤ offset then { out with pos := offset.toNat } else out

/-- `write`, in full. -/
def OutFile.write (out : OutFile) (bytes : List UInt8) : OutFile :=
  { pos := out.pos + bytes.length, blocks := (out.pos, bytes) :: out.blocks }

/-- `offset*CHUNK_SIZE+ret`, which the code computes as an `int`. -/
def chunkPos (offset ret : Int) : Int := toI32 (toI32 (offset * chunkSize) + ret)

/-! ## `reap` -/

section
variable (shahash : List UInt8 → Hash)

def checkOnechunkHash (data : List UInt8) (pattern : Hash) : Int :=
  if shahash data = pattern then 1 else 0

/-- `reap`: the file and the value returned. The first `write` takes all bytes, so the loop around
it runs once, with `ret` 0. -/
def reap (recv : RecvState) (offset : Int) (outfd : OutFile) : Option (OutFile × Int) :=
  recv.merge.map fun reapBuf =>
    if reapBuf.length = chunkSize then
      if checkOnechunkHash shahash reapBuf recv.hash = 1 then
        ((outfd.lseek (chunkPos offset 0)).write reapBuf, chunkSize)
      else (outfd, -1)
    else (outfd, 0)

/-- The output file after `reap`. The sweep goes on whatever `reap` did: where its copies leave the
payloads or `reap_buf`, which C leaves undefined, nothing is taken to be stored. -/
def afterReap (recv : RecvState) (offset : Int) (outfd : OutFile) : OutFile :=
  ((reap shahash recv offset outfd).map Prod.fst).getD outfd

end

/-- The bytes `reap` looks at: none where its copies are undefined. -/
def RecvState.joined (r : RecvState) : List UInt8 := r.merge.getD []

/-! ## The download side with its file -/

/-- What a needlist node says of its chunk. -/
def HashChunk.entry (x : HashChunk) : Int × Hash := (x.chunkid, x.hash)

structure Mydownload where
  conn : DownloadConn
  outputFd : OutFile
  /-- The entries of the chunk file of the last GET. -/
  wanted : List (Int × Hash)
  /-- The needlist entries `finish_one_download` removed since then. -/
  givenUp : List (Int × Hash)

def initMydownload (config : Config) : Mydownload :=
  { conn := initDownloadConn config, outputFd := .opened, wanted := [], givenUp := [] }

namespace Mydownload

section
variable (shahash : List UInt8 → Hash)

/-- The download sweep at node `k` of `downloading_list`, where `CHUNK_SIZE` bytes were received. -/
def sweep (k : Nat) (me : Mydownload) : Option Mydownload :=
  me.conn.downloadingList[k]?.bind fun currdownload =>
    currdownload.recver.bind fun recver =>
      if recver.recvBytesnum = chunkSize then
        (finishDownload k me.conn).map fun conn =>
          { me with
            conn := conn
            outputFd := afterReap shahash recver currdownload.chunkid me.outputFd
            givenUp := ((firstEntry me.conn.needlist currdownload.hash).map
              HashChunk.entry).toList ++ me.givenUp }
      else none

def next (config : Config) (me : Mydownload) : DownloadEvent → Option Mydownload
  | .reset entries =>
    some {
      conn := resetMydownload config entries
      outputFd := .opened
      wanted := entries
      givenUp := [] }
  | .finish k => me.sweep shahash k
  | e => (me.conn.next config e).map fun conn => { me with conn := conn }

end

variable {shahash : List UInt8 → Hash} {config : Config} {me me' : Mydownload} {e : DownloadEvent}

/-- **The lists move as they do without the file.** -/
theorem next_conn (h : me.next shahash config e = some me') :
    me.conn.next config e = some me'.conn := by
  cases e with
  | reset entries => cases h; rfl
  | finish k =>
    rw [next, sweep, Option.bind_eq_some_iff] at h
    obtain ⟨curr, -, h⟩ := h
    rw [Option.bind_eq_some_iff] at h
    obtain ⟨recver, -, h⟩ := h
    split at h
    · rw [Option.map_eq_some_iff] at h
      obtain ⟨conn, hconn, rfl⟩ := h
      exact hconn
    · cases h
  | _ =>
    rw [next] at h
    · rw [Option.map_eq_some_iff] at h
      obtain ⟨conn, hconn, rfl⟩ := h
      exact hconn
    · intro _ heq; cases heq
    · intro _ heq; cases heq

/-! ## Where a block is written -/

theorem chunkPos_eq (c : Int) : chunkPos c 0 =
    if c % 8192 < 4096 then c % 8192 * chunkSize else (c % 8192 - 8192) * chunkSize := by
  have hcs : (chunkSize : Int) = 524288 := rfl
  unfold chunkPos
  rw [hcs, toI32_eq, toI32_eq]
  split <;> omega

/-- Seeking to chunk `c` leaves the file at chunk `c'`. -/
def Lands (out : OutFile) (c c' : Int) : Prop :=
  if c % 8192 < 4096 then c' = c % 8192 else (out.pos : Int) = c' * chunkSize

theorem lseek_pos_iff (out : OutFile) (c c' : Int) :
    ((out.lseek (chunkPos c 0)).pos : Int) = c' * chunkSize ↔ Lands out c c' := by
  have hcs : (chunkSize : Int) = 524288 := rfl
  unfold Lands OutFile.lseek
  rw [chunkPos_eq, hcs]
  split
  · rw [if_pos (by omega)]
    simp only
    omega
  · rw [if_neg (by omega)]

/-! ## What the sweep does -/

/-- The sweep at a connection `curr` whose receiver has `m`: the chunk is given up, and `m` is
written if it is the chunk. -/
structure Swept (shahash : List UInt8 → Hash) (k : Nat) (curr : HashChunk) (recver : RecvState)
    (m : List UInt8) (me me' : Mydownload) : Prop where
  node : me.conn.downloadingList[k]? = some curr
  receiver : curr.recver = some recver
  joined : recver.joined = m
  removed : (curr.entry :: me'.conn.needlist.map HashChunk.entry).Perm
    (me.conn.needlist.map HashChunk.entry)
  wanted : me'.wanted = me.wanted
  givenUp : me'.givenUp = curr.entry :: me.givenUp
  written : m.length = chunkSize → shahash m = curr.hash →
    me'.outputFd = (me.outputFd.lseek (chunkPos curr.chunkid 0)).write m
  kept : ¬ (m.length = chunkSize ∧ shahash m = curr.hash) → me'.outputFd = me.outputFd

theorem joined_of_merge {recv : RecvState} {m : List UInt8} (h : recv.merge = some m) :
    recv.joined = m := by
  rw [RecvState.joined, h, Option.getD_some]

theorem merge_of_joined {recv : RecvState} (h : recv.joined.length = chunkSize) :
    recv.merge = some recv.joined := by
  unfold RecvState.joined at h ⊢
  cases hm : recv.merge with
  | none =>
    rw [hm] at h
    cases h
  | some m => rfl

/-- **`reap`** writes the bytes merged exactly if they are a chunk with the receiver's hash. -/
theorem afterReap_spec (shahash : List UInt8 → Hash) (recv : RecvState) (c : Int) (out : OutFile) :
    (recv.joined.length = chunkSize → shahash recv.joined = recv.hash →
      afterReap shahash recv c out = (out.lseek (chunkPos c 0)).write recv.joined) ∧
    (¬ (recv.joined.length = chunkSize ∧ shahash recv.joined = recv.hash) →
      afterReap shahash recv c out = out) := by
  unfold afterReap reap checkOnechunkHash
  constructor
  · intro hlen hhash
    rw [merge_of_joined hlen, Option.map_some, if_pos hlen, if_pos (if_pos hhash)]
    rfl
  · intro hno
    cases hm : recv.merge with
    | none => rfl
    | some m =>
      rw [joined_of_merge hm] at hno
      rw [Option.map_some]
      by_cases hlen : m.length = chunkSize
      · have hhash : shahash m ≠ recv.hash := fun hhash => hno ⟨hlen, hhash⟩
        rw [if_pos hlen, if_neg hhash, if_neg (by decide)]
        rfl
      · rw [if_neg hlen]
        rfl

/-- The connection finished is for the needlist entry that `finish_one_download` removes. -/
theorem entry_firstEntry {d : DownloadConn} (hd : d.Inv) {k : Nat} {curr x : HashChunk}
    (hcurr : d.downloadingList[k]? = some curr) (hx : firstEntry d.needlist curr.hash = some x) :
    x.entry = curr.entry := by
  have hmem : curr.key ∈ d.keys :=
    List.mem_map_of_mem (List.mem_append_right _ (List.mem_of_getElem? hcurr))
  have hid := hd.tracked.needed _ hmem
  rw [show curr.key.1 = curr.hash from rfl, hx, Option.map_some, Option.some.injEq] at hid
  exact Prod.ext hid (firstEntry_hash hx).2

/-- **The sweep** finishes the download, whatever `reap` did. -/
theorem sweep_swept {k : Nat} (hd : me.conn.Inv) (h : me.sweep shahash k = some me') :
    ∃ curr recver m, Swept shahash k curr recver m me me' := by
  unfold sweep at h
  rw [Option.bind_eq_some_iff] at h
  obtain ⟨curr, hcurr, h⟩ := h
  rw [Option.bind_eq_some_iff] at h
  obtain ⟨recver, hrecver, h⟩ := h
  split at h
  case isFalse => cases h
  rw [Option.map_eq_some_iff] at h
  obtain ⟨conn, hconn, rfl⟩ := h
  obtain ⟨hwritten, hkept⟩ := afterReap_spec shahash recver curr.chunkid me.outputFd
  have hhash : recver.hash = curr.hash := by
    obtain ⟨r', hr', -, hhash⟩ := hd.receivers.receiving curr (List.mem_of_getElem? hcurr)
    rw [hrecver, Option.some.injEq] at hr'
    rw [hr', hhash]
  rw [hhash] at hwritten hkept
  -- the needlist loses the entry of the connection
  rw [finishDownload, Option.map_eq_some_iff] at hconn
  obtain ⟨conn₁, hfinish, rfl⟩ := hconn
  unfold finishOneDownload at hfinish
  rw [hcurr, Option.bind_some, Option.map_eq_some_iff] at hfinish
  obtain ⟨needlist, hneed, rfl⟩ := hfinish
  obtain ⟨j, x, hx, -, hfirst, rfl⟩ := deleteNodeByHash_spec hneed
  have hentry := entry_firstEntry hd hcurr hfirst
  have hperm := (perm_deleteNode hx).map HashChunk.entry
  rw [List.map_cons, hentry] at hperm
  refine ⟨curr, recver, recver.joined, hcurr, hrecver, rfl, ?_, rfl, ?_, hwritten, hkept⟩
  · simp only [apply_ite DownloadConn.needlist, completeMydownload, ite_self]
    exact hperm
  · simp only [hfirst, Option.map_some, Option.toList_some, hentry, List.singleton_append]

/-! ## The invariant -/

/-- What is needed and what was given up make up what was wanted. -/
structure Inv (me : Mydownload) : Prop where
  lists : me.conn.Inv
  entries : (me.givenUp ++ me.conn.needlist.map HashChunk.entry).Perm me.wanted

theorem inv_init (config : Config) : (initMydownload config).Inv :=
  ⟨DownloadConn.inv_init config, .refl _⟩

/-- An event that neither starts a GET nor finishes a download leaves the file and the needlist as
they are. -/
theorem next_frame (h : me.next shahash config e = some me') (hr : ∀ entries, e ≠ .reset entries)
    (hf : ∀ k, e ≠ .finish k) :
    me' = { me with conn := me'.conn } ∧ me'.conn.needlist = me.conn.needlist := by
  have hneed := DownloadConn.needlist_next (next_conn h) hr hf
  refine ⟨?_, hneed⟩
  cases e with
  | reset entries => exact absurd rfl (hr entries)
  | finish k => exact absurd rfl (hf k)
  | checkTimeout =>
    cases h
    rfl
  | ihave | getSender | data | recvTimeout =>
    obtain ⟨conn, -, rfl⟩ := Option.map_eq_some_iff.mp h
    rfl

/-- **Everything an event can do** to the file and to the chunks given up. -/
theorem next_cases (hd : me.conn.Inv) (h : me.next shahash config e = some me') :
    (∃ entries, e = .reset entries ∧ me'.outputFd = .opened ∧ me'.givenUp = [] ∧
      me'.wanted = entries ∧ (me'.conn.needlist.map HashChunk.entry).Perm entries) ∨
    (∃ k curr recver m, e = .finish k ∧ Swept shahash k curr recver m me me') ∨
    ((∀ k, e ≠ .finish k) ∧ me' = { me with conn := me'.conn } ∧
      me'.conn.needlist = me.conn.needlist) := by
  by_cases hr : ∃ entries, e = .reset entries
  · obtain ⟨entries, rfl⟩ := hr
    cases h
    refine .inl ⟨entries, rfl, rfl, rfl, rfl, ?_⟩
    rw [resetMydownload, parseHasneedList_eq, List.map_reverse, List.map_map]
    refine (List.reverse_perm _).trans (.of_eq ?_)
    exact List.map_id entries
  · by_cases hf : ∃ k, e = .finish k
    · obtain ⟨k, rfl⟩ := hf
      obtain ⟨curr, recver, m, hs⟩ := sweep_swept hd h
      exact .inr (.inl ⟨k, curr, recver, m, rfl, hs⟩)
    · push Not at hr hf
      exact .inr (.inr ⟨hf, next_frame h hr hf⟩)

/-- **Every event keeps the invariant.** -/
theorem Inv.next (hme : me.Inv) (h : me.next shahash config e = some me') : me'.Inv := by
  refine ⟨hme.lists.next (next_conn h), ?_⟩
  rcases next_cases hme.lists h with ⟨entries, -, -, hup, hwanted, hperm⟩ |
    ⟨k, curr, recver, m, -, hs⟩ | ⟨-, heq, hneed⟩
  · rw [hup, hwanted, List.nil_append]
    exact hperm
  · rw [hs.wanted, hs.givenUp, List.cons_append]
    exact List.perm_middle.symm.trans ((hs.removed.append_left me.givenUp).trans hme.entries)
  · rw [heq, hneed]
    exact hme.entries

end Mydownload

end P2P
