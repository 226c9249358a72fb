import P2P.Peer.Disk
import P2P.Transfer.Chunk

/-!
# Runs of the download side with its file

The sweep finishes a download whatever `reap` returned, and `reap` computes the
place of a chunk as a 32-bit product:

* `given_up_stored_iff`: the chunks given up are on disk exactly in the runs whose
  sweeps find the chunk in the receiver and its place in range;
* `output_file_integrity_iff`: every block written is a needed chunk; it is written
  at the place of one exactly if that place is in range.

Both are shown to fail on the packets of one chunk (`chunkRun`). The place is always in range for
files of less than 2 GiB (`small_files_in_place`).
-/

namespace P2P

open Lib

/-- `CHUNK_SIZE` bytes with the hash of the entry were written at its place. -/
def OutFile.Stored (shahash : List UInt8 → Hash) (out : OutFile) (entry : Int × Hash) : Prop :=
  ∃ pos bytes, (pos, bytes) ∈ out.blocks ∧ (pos : Int) = entry.1 * chunkSize ∧
    bytes.length = chunkSize ∧ shahash bytes = entry.2

@[simp] theorem OutFile.lseek_blocks (out : OutFile) (offset : Int) :
    (out.lseek offset).blocks = out.blocks := by
  unfold lseek
  split <;> rfl

theorem OutFile.stored_write {shahash : List UInt8 → Hash} {out : OutFile} {m : List UInt8}
    {entry : Int × Hash} : (out.write m).Stored shahash entry ↔
      ((out.pos : Int) = entry.1 * chunkSize ∧ m.length = chunkSize ∧ shahash m = entry.2) ∨
        out.Stored shahash entry := by
  unfold Stored write
  constructor
  · rintro ⟨pos, bytes, hmem, hrest⟩
    rcases List.mem_cons.mp hmem with heq | hold
    · cases heq
      exact .inl hrest
    · exact .inr ⟨pos, bytes, hold, hrest⟩
  · rintro (hnew | ⟨pos, bytes, hmem, hrest⟩)
    · exact ⟨_, _, List.mem_cons_self, hnew⟩
    · exact ⟨pos, bytes, List.mem_cons_of_mem _ hmem, hrest⟩

namespace Mydownload

variable {shahash : List UInt8 → Hash} {config : Config} {me me' : Mydownload} {e : DownloadEvent}

/-! ## Chunks given up -/

/-- Every entry given up is stored. -/
def Kept (shahash : List UInt8 → Hash) (me : Mydownload) : Prop :=
  ∀ entry ∈ me.givenUp, me.outputFd.Stored shahash entry

/-- When the last chunk is finished, all that was wanted is stored. -/
def CompletesWithFile (shahash : List UInt8 → Hash) (_ : Mydownload) (e : DownloadEvent)
    (me' : Mydownload) : Prop :=
  ∀ k, e = .finish k → me'.conn.needlist = [] →
    ∀ entry ∈ me'.wanted, me'.outputFd.Stored shahash entry

/-- A sweep finds the chunk in the receiver, within the payloads, and its place in range, or stored
before. -/
def Delivers (shahash : List UInt8 → Hash) (me : Mydownload) (e : DownloadEvent)
    (_ : Mydownload) : Prop :=
  ∀ k curr recver, e = .finish k → me.conn.downloadingList[k]? = some curr →
    curr.recver = some recver →
      me.outputFd.Stored shahash curr.entry ∨
      ∃ m, recver.merge = some m ∧ m.length = chunkSize ∧ shahash m = curr.hash ∧
        Lands me.outputFd curr.chunkid curr.chunkid

variable {k : Nat} {curr : HashChunk} {recver : RecvState} {m : List UInt8}

theorem Swept.stored_iff (hs : Swept shahash k curr recver m me me') (entry : Int × Hash) :
    me'.outputFd.Stored shahash entry ↔ me.outputFd.Stored shahash entry ∨
      (m.length = chunkSize ∧ shahash m = curr.hash ∧ shahash m = entry.2 ∧
        Lands me.outputFd curr.chunkid entry.1) := by
  by_cases hm : m.length = chunkSize ∧ shahash m = curr.hash
  · have hold : ((me.outputFd.lseek (chunkPos curr.chunkid 0)).Stored shahash entry ↔
        me.outputFd.Stored shahash entry) := by
      unfold OutFile.Stored
      rw [OutFile.lseek_blocks]
    rw [hs.written hm.1 hm.2, OutFile.stored_write, lseek_pos_iff, hold, or_comm]
    apply or_congr Iff.rfl
    constructor
    · rintro ⟨hland, hlen, hsha⟩
      exact ⟨hlen, hm.2, hsha, hland⟩
    · rintro ⟨hlen, -, hsha, hland⟩
      exact ⟨hland, hlen, hsha⟩
  · rw [hs.kept hm]
    refine ⟨.inl, ?_⟩
    rintro (hold | ⟨hlen, hsha, -⟩)
    · exact hold
    · exact absurd ⟨hlen, hsha⟩ hm

theorem Inv.wanted_givenUp (hme : me.Inv) (hneed : me.conn.needlist = []) {entry : Int × Hash}
    (h : entry ∈ me.wanted) : entry ∈ me.givenUp := by
  have hperm := hme.entries
  rw [hneed, List.map_nil, List.append_nil] at hperm
  exact hperm.mem_iff.mpr h

/-- **One event** keeps the chunks given up stored exactly if it delivers. -/
theorem kept_step_iff (hme : me.Inv) (hkept : me.Kept shahash)
    (h : me.next shahash config e = some me') :
    me'.Kept shahash ∧ CompletesWithFile shahash me e me' ↔ Delivers shahash me e me' := by
  have hme' := hme.next h
  have hcomplete : me'.Kept shahash → CompletesWithFile shahash me e me' :=
    fun hk k _ hneed entry hentry => hk entry (hme'.wanted_givenUp hneed hentry)
  rcases next_cases hme.lists h with ⟨entries, rfl, -, hup, -⟩ |
    ⟨k, curr, recver, m, rfl, hs⟩ | ⟨hno, heq, -⟩
  · have hk : me'.Kept shahash := by
      unfold Kept
      rw [hup]
      exact fun _ hentry => absurd hentry List.not_mem_nil
    exact ⟨fun _ _ _ _ heq => (nomatch heq), fun _ => ⟨hk, hcomplete hk⟩⟩
  · have hstored := hs.stored_iff curr.entry
    constructor
    · rintro ⟨hk, -⟩ k' curr' recver' heq hnode hrecver
      cases heq
      cases hs.node.symm.trans hnode
      cases hs.receiver.symm.trans hrecver
      have hnew := hk curr.entry (by rw [hs.givenUp]; exact List.mem_cons_self)
      rcases hstored.mp hnew with hold | ⟨hlen, hsha, -, hland⟩
      · exact .inl hold
      · have hm := merge_of_joined (hs.joined.symm ▸ hlen)
        rw [hs.joined] at hm
        exact .inr ⟨m, hm, hlen, hsha, hland⟩
    · intro hd
      have hk : me'.Kept shahash := by
        intro entry hentry
        rw [hs.givenUp] at hentry
        rcases List.mem_cons.mp hentry with rfl | hold
        · rcases hd k curr recver rfl hs.node hs.receiver with hold | ⟨m', hm, hlen, hsha, hland⟩
          · exact hstored.mpr (.inl hold)
          · obtain rfl : m' = m := (joined_of_merge hm).symm.trans hs.joined
            exact hstored.mpr (.inr ⟨hlen, hsha, hsha, hland⟩)
        · exact (hs.stored_iff entry).mpr (.inl (hkept entry hold))
      exact ⟨hk, hcomplete hk⟩
  · have hk : me'.Kept shahash := by
      unfold Kept
      rw [heq]
      exact hkept
    exact ⟨fun _ k _ _ heq => absurd heq (hno k), fun _ => ⟨hk, hcomplete hk⟩⟩

/-! ## Blocks written -/

/-- The event writes nothing, opens a new file, or writes one block with the property. -/
def Writes (Q : HashChunk → Nat → List UInt8 → Prop) (me : Mydownload) (e : DownloadEvent)
    (me' : Mydownload) : Prop :=
  (∃ entries, e = .reset entries ∧ me'.outputFd = .opened) ∨
  me'.outputFd.blocks = me.outputFd.blocks ∨
  ∃ k curr pos bytes, e = .finish k ∧ me.conn.downloadingList[k]? = some curr ∧
    me'.outputFd.blocks = (pos, bytes) :: me.outputFd.blocks ∧ bytes.length = chunkSize ∧
    Q curr pos bytes

/-- What is written is the chunk of the needlist entry that `reap` was called for. -/
def WritesNeeded (shahash : List UInt8 → Hash) (me : Mydownload) :
    DownloadEvent → Mydownload → Prop :=
  Writes (fun curr _ bytes => ∃ entry ∈ me.conn.needlist, entry.chunkid = curr.chunkid ∧
    shahash bytes = entry.hash) me

/-- What is written is the chunk of the needlist entry of that place in the file. -/
def WritesInPlace (shahash : List UInt8 → Hash) (me : Mydownload) :
    DownloadEvent → Mydownload → Prop :=
  Writes (fun _ pos bytes => ∃ entry ∈ me.conn.needlist, (pos : Int) = entry.chunkid * chunkSize ∧
    shahash bytes = entry.hash) me

/-- Where a sweep has a chunk to write, the 32-bit product leads to an entry with its hash. -/
def InRange (shahash : List UInt8 → Hash) (me : Mydownload) (e : DownloadEvent)
    (_ : Mydownload) : Prop :=
  ∀ k curr recver m, e = .finish k → me.conn.downloadingList[k]? = some curr →
    curr.recver = some recver → recver.merge = some m → m.length = chunkSize →
    shahash m = curr.hash →
      ∃ entry ∈ me.conn.needlist, entry.hash = curr.hash ∧
        Lands me.outputFd curr.chunkid entry.chunkid

theorem Swept.needed (hs : Swept shahash k curr recver m me me') :
    ∃ entry ∈ me.conn.needlist, entry.chunkid = curr.chunkid ∧ entry.hash = curr.hash := by
  obtain ⟨entry, hmem, heq⟩ := List.mem_map.mp (hs.removed.subset List.mem_cons_self)
  exact ⟨entry, hmem, congrArg Prod.fst heq, congrArg Prod.snd heq⟩

theorem Swept.blocks (hs : Swept shahash k curr recver m me me') (hlen : m.length = chunkSize)
    (hsha : shahash m = curr.hash) : me'.outputFd.blocks =
      ((me.outputFd.lseek (chunkPos curr.chunkid 0)).pos, m) :: me.outputFd.blocks := by
  rw [hs.written hlen hsha, OutFile.write, OutFile.lseek_blocks]

/-- **Every event** writes needed chunks only. -/
theorem writesNeeded (hme : me.Inv) (h : me.next shahash config e = some me') :
    WritesNeeded shahash me e me' := by
  rcases next_cases hme.lists h with ⟨entries, rfl, hout, -⟩ | ⟨k, curr, recver, m, rfl, hs⟩ |
    ⟨-, heq, -⟩
  · exact .inl ⟨entries, rfl, hout⟩
  · by_cases hm : m.length = chunkSize ∧ shahash m = curr.hash
    · obtain ⟨entry, hmem, hid, hhash⟩ := hs.needed
      exact .inr (.inr ⟨k, curr, _, m, rfl, hs.node, hs.blocks hm.1 hm.2, hm.1, entry, hmem, hid,
        hm.2.trans hhash.symm⟩)
    · exact .inr (.inl (by rw [hs.kept hm]))
  · exact .inr (.inl (by rw [heq]))

/-- **Every event** writes in place exactly if the place is in range. -/
theorem writesInPlace_iff (hme : me.Inv) (h : me.next shahash config e = some me') :
    WritesInPlace shahash me e me' ↔ InRange shahash me e me' := by
  rcases next_cases hme.lists h with ⟨entries, rfl, hout, -⟩ | ⟨k, curr, recver, m, rfl, hs⟩ |
    ⟨hno, heq, -⟩
  · exact ⟨fun _ _ _ _ _ heq => (nomatch heq), fun _ => .inl ⟨entries, rfl, hout⟩⟩
  · constructor
    · intro hw k' curr' recver' m' heq hnode hrecver hmerge hlen hsha
      cases heq
      cases hs.node.symm.trans hnode
      cases hs.receiver.symm.trans hrecver
      cases (joined_of_merge hmerge).symm.trans hs.joined
      have hblocks := hs.blocks hlen hsha
      rcases hw with ⟨entries, heq, -⟩ | hsame |
        ⟨k', curr', pos, bytes, heq, -, hnew, -, entry, hmem, hpos, hhash⟩
      · cases heq
      · rw [hsame] at hblocks
        exact absurd hblocks.symm (List.cons_ne_self _ _)
      · rw [hblocks] at hnew
        cases hnew
        exact ⟨entry, hmem, hhash.symm.trans hsha, (lseek_pos_iff _ _ _).mp hpos⟩
    · intro hr
      by_cases hm : m.length = chunkSize ∧ shahash m = curr.hash
      · obtain ⟨entry, hmem, hhash, hland⟩ :=
          hr k curr recver m rfl hs.node hs.receiver
            (hs.joined ▸ merge_of_joined (hs.joined.symm ▸ hm.1)) hm.1 hm.2
        exact .inr (.inr ⟨k, curr, _, m, rfl, hs.node, hs.blocks hm.1 hm.2, hm.1, entry, hmem,
          (lseek_pos_iff _ _ _).mpr hland, hm.2.trans hhash.symm⟩)
      · exact .inr (.inl (by rw [hs.kept hm]))
  · exact ⟨fun _ k _ _ _ heq => absurd heq (hno k), fun _ => .inr (.inl (by rw [heq]))⟩

/-! ### Small chunk ids -/

/-- A chunk file of less than 2 GiB. -/
def SmallFile (entries : List (Int × Hash)) : Prop :=
  ∀ entry ∈ entries, 0 ≤ entry.1 ∧ entry.1 < 4096

theorem lands_of_lt {out : OutFile} {c : Int} (h0 : 0 ≤ c) (hlt : c < 4096) : Lands out c c := by
  unfold Lands
  rw [if_pos (by omega)]
  omega

theorem write_lseek_blocks {c : Int} (h0 : 0 ≤ c) (hlt : c < 4096) (out : OutFile)
    (m : List UInt8) : ((out.lseek (chunkPos c 0)).write m).blocks =
      ((c * chunkSize).toNat, m) :: out.blocks := by
  have hpos := (lseek_pos_iff out c c).mpr (lands_of_lt h0 hlt)
  rw [OutFile.write, OutFile.lseek_blocks, ← hpos, Int.toNat_natCast]

/-- Only the start of a GET brings new chunk ids. -/
theorem smallFile_next (hme : me.Inv) (hsmall : SmallFile (me.conn.needlist.map HashChunk.entry))
    (he : ∀ entries, e = .reset entries → SmallFile entries)
    (h : me.next shahash config e = some me') :
    SmallFile (me'.conn.needlist.map HashChunk.entry) := by
  rcases next_cases hme.lists h with ⟨entries, rfl, -, -, -, hperm⟩ |
    ⟨k, curr, recver, m, -, hs⟩ | ⟨-, -, hneed⟩
  · exact fun entry hentry => he entries rfl entry (hperm.subset hentry)
  · exact fun entry hentry => hsmall entry (hs.removed.subset (List.mem_cons_of_mem _ hentry))
  · rw [hneed]
    exact hsmall

theorem inRange_of_smallFile (hme : me.Inv)
    (hsmall : SmallFile (me.conn.needlist.map HashChunk.entry))
    (h : me.next shahash config e = some me') : InRange shahash me e me' := by
  rintro k curr recver m rfl hnode - - - -
  obtain ⟨curr', recver', m', hs⟩ := sweep_swept hme.lists h
  cases hs.node.symm.trans hnode
  obtain ⟨entry, hmem, hid, hhash⟩ := hs.needed
  obtain ⟨h0, hlt⟩ := hsmall entry.entry (List.mem_map_of_mem hmem)
  refine ⟨entry, hmem, hhash, ?_⟩
  rw [← hid]
  exact lands_of_lt h0 hlt

end Mydownload

open Mydownload in
/-- **A chunk is given up once it is on disk** exactly in the runs whose sweeps deliver. -/
theorem given_up_stored_iff (shahash : List UInt8 → Hash) (config : Config)
    (es : List DownloadEvent) :
    Always (next shahash config) (Kept shahash) (initMydownload config) es ∧
        EachStep (next shahash config) (CompletesWithFile shahash) (initMydownload config) es ↔
      EachStep (next shahash config) (Delivers shahash) (initMydownload config) es :=
  always_iff_each (W := Inv) (fun _ _ _ hme _ h => hme.next h)
    (fun _ _ _ hme hk h => kept_step_iff hme hk h) (inv_init config)
    fun _ hentry => absurd hentry List.not_mem_nil

open Mydownload in
/-- **Output-file integrity.** In every run `reap` writes only chunks needed at that moment; it
writes them in their places exactly in the runs where these are in range. -/
theorem output_file_integrity_iff (shahash : List UInt8 → Hash) (config : Config)
    (es : List DownloadEvent) :
    EachStep (next shahash config) (WritesNeeded shahash) (initMydownload config) es ∧
    (EachStep (next shahash config) (WritesInPlace shahash) (initMydownload config) es ↔
      EachStep (next shahash config) (InRange shahash) (initMydownload config) es) :=
  ⟨each_of_invariant (W := Inv) (fun _ _ _ hme h => hme.next h)
      (fun _ _ _ hme h => writesNeeded hme h) (inv_init config),
    each_iff (W := Inv) (fun _ _ _ hme h => hme.next h) (fun _ _ _ hme h => writesInPlace_iff hme h)
      (inv_init config)⟩

open Mydownload in
/-- **In a run of GETs for files of less than 2 GiB** every block is written in its place. -/
theorem small_files_in_place (shahash : List UInt8 → Hash) (config : Config)
    {es : List DownloadEvent} (hes : ∀ entries, .reset entries ∈ es → SmallFile entries) :
    EachStep (next shahash config) (WritesInPlace shahash) (initMydownload config) es := by
  have hevents : EachStep (next shahash config)
      (fun _ e _ => ∀ entries, e = .reset entries → SmallFile entries) (initMydownload config) es :=
    each_of_events fun e he entries heq => hes entries (heq ▸ he)
  have hstep : ∀ (me : Mydownload) (e : DownloadEvent) (me' : Mydownload),
      me.Inv ∧ SmallFile (me.conn.needlist.map HashChunk.entry) →
      next shahash config me e = some me' → (∀ entries, e = .reset entries → SmallFile entries) →
      (me'.Inv ∧ SmallFile (me'.conn.needlist.map HashChunk.entry)) ∧
        WritesInPlace shahash me e me' := by
    rintro me e me' ⟨hme, hsmall⟩ h he
    exact ⟨⟨hme.next h, smallFile_next hme hsmall he h⟩,
      (writesInPlace_iff hme h).mpr (inRange_of_smallFile hme hsmall h)⟩
  have hstart : SmallFile ((initMydownload config).conn.needlist.map HashChunk.entry) :=
    fun entry hentry => absurd hentry List.not_mem_nil
  exact (always_of_each hstep ⟨inv_init config, hstart⟩ hevents).2

/-! ## The packets of one chunk -/

namespace DownloadConn

variable {config : Config} {d : DownloadConn} {x : HashChunk} {addr : SockAddr} {now : Int}

theorem findNodeByAddr_singleton (hport : x.fromAddr.sinPort = addr.sinPort) :
    findNodeByAddr [x] addr = some (0, x) := by
  have hsame : sameAddr x.fromAddr addr = true := (sameAddr_iff _ _).mpr hport
  unfold findNodeByAddr findFirst
  rw [List.findIdx?_cons, if_pos hsame]
  rfl

theorem receiveOn_singleton {pack : Packet} {r r' : RecvState} {acks : List Packet}
    (hdown : d.downloadingList = [x]) (hr : x.recver = some r)
    (hrun : uponReceivingDatapack pack r = some (r', acks)) :
    receiveOn pack 0 d =
      some ({ d with downloadingList := [{ x with recver := some r' }] }, acks) := by
  rw [receiveOn, hdown, List.getElem?_cons_zero, Option.bind_some, hr, Option.bind_some, hrun,
    Option.map_some]
  rfl

theorem next_data_first {pack : Packet} {r : RecvState} (hsent : d.getSentList = [x])
    (hdown : d.downloadingList = []) (hport : x.fromAddr.sinPort = addr.sinPort)
    (hr : (createRecver x.hash).next pack = some r) :
    d.next config (.data pack addr now) = some { d with
      getSentList := []
      downloadingList := [{ x with timestamp := now, recver := some r }] } := by
  rw [RecvState.next, Option.map_eq_some_iff] at hr
  obtain ⟨⟨r', acks⟩, hrun, rfl⟩ := hr
  have hdata : dealwithData pack addr now d = receiveOn pack 0 (initDownload now 0 x d) := by
    rw [dealwithData, hdown, hsent, findNodeByAddr_singleton hport]
    rfl
  have hinit : initDownload now 0 x d = { d with
      getSentList := []
      downloadingList := [{ x with timestamp := now, recver := some (createRecver x.hash) }] } := by
    rw [initDownload, hsent, hdown]
    rfl
  rw [next, hdata, hinit, receiveOn_singleton rfl rfl hrun]
  rfl

theorem next_data_later {pack : Packet} {r r' : RecvState} (hdown : d.downloadingList = [x])
    (hport : x.fromAddr.sinPort = addr.sinPort) (hr : x.recver = some r)
    (hnext : r.next pack = some r') :
    d.next config (.data pack addr now) = some { d with
      downloadingList := [{ x with timestamp := now, recver := some r' }] } := by
  rw [RecvState.next, Option.map_eq_some_iff] at hnext
  obtain ⟨⟨r₁, acks⟩, hrun, rfl⟩ := hnext
  have hdata : dealwithData pack addr now d =
      receiveOn pack 0 { d with downloadingList := [{ x with timestamp := now }] } := by
    rw [dealwithData, hdown, findNodeByAddr_singleton hport]
    rfl
  rw [next, hdata, receiveOn_singleton (x := { x with timestamp := now }) rfl hr hrun]
  rfl

end DownloadConn

namespace Mydownload

variable {shahash : List UInt8 → Hash} {config : Config} {addr : SockAddr} {now : Int}

theorem next_data (shahash : List UInt8 → Hash) (me : Mydownload) {pack : Packet}
    {conn : DownloadConn}
    (h : me.conn.next config (.data pack addr now) = some conn) :
    me.next shahash config (.data pack addr now) = some { me with conn := conn } := by
  show (me.conn.next config (.data pack addr now)).map (fun conn => { me with conn := conn }) = _
  rw [h, Option.map_some]

/-- Data packets from the one peer, all at one time. -/
def dataEvents (packs : List Packet) (addr : SockAddr) (now : Int) : List DownloadEvent :=
  packs.map fun pack => .data pack addr now

theorem exists_dataEvents (shahash : List UInt8 → Hash) (config : Config) (addr : SockAddr)
    (now : Int) (packs : List Packet) :
    ∀ (me : Mydownload) {x : HashChunk} {r r' : RecvState}, me.conn.downloadingList = [x] →
      x.fromAddr.sinPort = addr.sinPort → x.recver = some r →
      exec RecvState.next r packs = some r' →
      ∃ me' x', exec (next shahash config) me (dataEvents packs addr now) = some me' ∧
        me'.conn.downloadingList = [x'] ∧ x'.entry = x.entry ∧ x'.recver = some r' ∧
        me'.conn.needlist = me.conn.needlist ∧ me'.outputFd = me.outputFd := by
  induction packs with
  | nil =>
    intro me x r r' hdown _ hr hrun
    cases hrun
    exact ⟨me, x, rfl, hdown, rfl, hr, rfl, rfl⟩
  | cons pack packs ih =>
    intro me x r r' hdown hport hr hrun
    obtain ⟨r₁, hr₁, hrun⟩ := exec_cons_eq_some.mp hrun
    have hlater : me.conn.next config (.data pack addr now) = some { me.conn with
        downloadingList := [{ x with timestamp := now, recver := some r₁ }] } :=
      DownloadConn.next_data_later hdown hport hr hr₁
    have hstep := next_data shahash me hlater
    rw [dataEvents, List.map_cons, exec_step hstep]
    exact ih { me with conn := { me.conn with
      downloadingList := [{ x with timestamp := now, recver := some r₁ }] } }
      (x := { x with timestamp := now, recver := some r₁ }) rfl hport rfl hrun

/-- The peer of these runs. -/
def onePeer : Config := ⟨4, ⟨0, 1⟩⟩

/-- One chunk is wanted, and a peer offers it. -/
def offered (c : Int) (h : Hash) : DownloadConn :=
  { concurrDownloadNum := 0, maxDownloadNum := 4, howmanyFound := 1, howmanyNeed := 1,
    needlist := [createNode ⟨0, 1⟩ h c], getTosendQuene := [createNode ⟨0, 2⟩ h c],
    getSentList := [], downloadingList := [] }

/-- The peer is asked for the chunk. -/
def asked (c : Int) (h : Hash) : DownloadConn :=
  { offered c h with
    concurrDownloadNum := 1, getTosendQuene := [], getSentList := [createNode ⟨0, 2⟩ h c] }

theorem findNode_createNode (addr : SockAddr) (c : Int) (h : Hash) :
    findNode [createNode addr h c] h = some (0, createNode addr h c) := by
  unfold findNode findFirst
  rw [List.findIdx?_cons, if_pos (by simp [createNode])]
  rfl

theorem ihave_offered (c : Int) (h : Hash) :
    (resetMydownload onePeer [(c, h)]).next onePeer (.ihave (ihavePack [h]) ⟨0, 2⟩) =
      some (offered c h) := by
  have hhash : payloadHash (ihavePack [h]) 0 = some h := by
    rw [payloadHash, ihavePack, List.flatMap_cons, List.flatMap_nil, List.append_nil,
      Nat.zero_mul, List.drop_zero, Hash.ofBytes_toList]
  rw [DownloadConn.next, fillTogetList, show (ihavePack [h]).chunkhashNum.toNat = 1 from rfl,
    fillLoop, hhash, Option.bind_some, fillLoop, fillHash]
  rw [show (resetMydownload onePeer [(c, h)]).needlist = [createNode ⟨0, 1⟩ h c] from rfl,
    findNode_createNode]
  rfl

theorem getSender_asked (c : Int) (h : Hash) :
    (offered c h).next onePeer (.getSender 0) = some (asked c h) := by
  have hpick : pickTosendGET 0 (offered c h) 4 = some
      ({ asked c h with concurrDownloadNum := 0 }, 1,
        [(⟨0, 2⟩, (formGET (createNode ⟨0, 2⟩ h c)).onWire)]) := by
    have hidle : (offered c h).idle (createNode ⟨0, 2⟩ h c) = true := rfl
    show pickLoop 0 (offered c h) 4 0 [createNode ⟨0, 2⟩ h c] = _
    rw [pickLoop, if_pos (by decide), if_pos hidle, DownloadConn.not_any_idle, if_neg (by simp),
      DownloadConn.sendPack_formGET]
    rfl
  have hget : getSender 0 (offered c h) =
      (pickTosendGET 0 (offered c h) 4).map fun pick =>
        ({ pick.1 with concurrDownloadNum := pick.1.concurrDownloadNum + pick.2.1 }, pick.2) :=
    rfl
  rw [DownloadConn.next, hget, hpick]
  rfl

/-- A GET for one chunk, offered by one peer, and all the data packets of a chunk in their order. -/
def chunkRun (c : Int) (h : Hash) (data : List UInt8) : List DownloadEvent :=
  [.reset [(c, h)], .ihave (ihavePack [h]) ⟨0, 2⟩, .getSender 0] ++
    dataEvents (RecvState.chunkPacks data 512) ⟨0, 2⟩ 0

theorem exists_chunkRun (shahash : List UInt8 → Hash) (c : Int) (h : Hash) {data : List UInt8}
    (hlen : data.length = chunkSize) :
    ∃ me x r, exec (next shahash onePeer) (initMydownload onePeer) (chunkRun c h data) = some me ∧
      me.conn.downloadingList = [x] ∧ x.entry = (c, h) ∧ x.recver = some r ∧
      r.recvBytesnum = chunkSize ∧ r.merge = some data ∧
      me.conn.needlist = [createNode ⟨0, 1⟩ h c] ∧ me.outputFd = .opened := by
  obtain ⟨r, hrun, -, hbytes, hmerge⟩ := RecvState.exists_chunkReceived hlen h
  have hask : exec (next shahash onePeer) (initMydownload onePeer)
      [.reset [(c, h)], .ihave (ihavePack [h]) ⟨0, 2⟩, .getSender 0] =
        some ⟨asked c h, .opened, [(c, h)], []⟩ := by
    have hreset : next shahash onePeer (initMydownload onePeer) (.reset [(c, h)]) =
        some ⟨resetMydownload onePeer [(c, h)], .opened, [(c, h)], []⟩ := rfl
    have hihave : next shahash onePeer ⟨resetMydownload onePeer [(c, h)], .opened, [(c, h)], []⟩
        (.ihave (ihavePack [h]) ⟨0, 2⟩) = some ⟨offered c h, .opened, [(c, h)], []⟩ :=
      congrArg (Option.map _) (ihave_offered c h)
    have hget : next shahash onePeer ⟨offered c h, .opened, [(c, h)], []⟩ (.getSender 0) =
        some ⟨asked c h, .opened, [(c, h)], []⟩ :=
      congrArg (Option.map _) (getSender_asked c h)
    rw [exec_step hreset, exec_step hihave, exec_step hget, exec_nil]
  -- the first packet opens the connection, the others find it open
  cases hpacks : RecvState.chunkPacks data 512 with
  | nil => exact absurd (congrArg List.length hpacks) (by simp [RecvState.chunkPacks])
  | cons pack packs =>
    rw [hpacks] at hrun
    obtain ⟨r₁, hr₁, hrun⟩ := exec_cons_eq_some.mp hrun
    have hfirst : (asked c h).next onePeer (.data pack ⟨0, 2⟩ 0) = some { asked c h with
        getSentList := []
        downloadingList := [{ createNode ⟨0, 2⟩ h c with recver := some r₁ }] } :=
      DownloadConn.next_data_first (x := createNode ⟨0, 2⟩ h c) rfl rfl rfl hr₁
    have hopen := next_data shahash ⟨asked c h, .opened, [(c, h)], []⟩ hfirst
    obtain ⟨me, x, hdata, hdown, hentry, hr, hneed, hout⟩ :=
      exists_dataEvents shahash onePeer ⟨0, 2⟩ 0 packs
        ⟨{ asked c h with
            getSentList := []
            downloadingList := [{ createNode ⟨0, 2⟩ h c with recver := some r₁ }] },
          .opened, [(c, h)], []⟩
        (x := { createNode ⟨0, 2⟩ h c with recver := some r₁ }) rfl rfl rfl hrun
    refine ⟨me, x, r, ?_, hdown, hentry, hr, hbytes, hmerge, hneed, hout⟩
    rw [chunkRun, hpacks]
    refine exec_trans hask ?_
    rw [dataEvents, List.map_cons, exec_step hopen]
    exact hdata

theorem exists_sweep (shahash : List UInt8 → Hash) (config : Config) {me : Mydownload}
    {x : HashChunk} {r : RecvState} {h : Hash} {c : Int}
    (hdown : me.conn.downloadingList = [x]) (hentry : x.entry = (c, h)) (hr : x.recver = some r)
    (hbytes : r.recvBytesnum = chunkSize)
    (hneed : me.conn.needlist = [createNode ⟨0, 1⟩ h c]) :
    ∃ me', me.next shahash config (.finish 0) = some me' := by
  have hhash : x.hash = h := congrArg Prod.snd hentry
  rw [next, sweep, hdown, List.getElem?_cons_zero, Option.bind_some, hr, Option.bind_some,
    if_pos hbytes]
  rw [finishDownload, finishOneDownload, hdown, List.getElem?_cons_zero, Option.bind_some, hhash,
    hneed, deleteNodeByHash, findNode_createNode]
  exact ⟨_, rfl⟩

theorem exists_chunkRun_swept (shahash : List UInt8 → Hash) (c : Int) (h : Hash) {data : List UInt8}
    (hlen : data.length = chunkSize) :
    ∃ me me' x r,
      exec (next shahash onePeer) (initMydownload onePeer) (chunkRun c h data) = some me ∧
      me.next shahash onePeer (.finish 0) = some me' ∧ Swept shahash 0 x r data me me' ∧
      x.entry = (c, h) ∧ me.conn.needlist = [createNode ⟨0, 1⟩ h c] ∧ me.outputFd = .opened := by
  obtain ⟨me, x, r, hrun, hdown, hentry, hr, hbytes, hm, hneed, hout⟩ :=
    exists_chunkRun shahash c h hlen
  obtain ⟨me', hsweep⟩ := exists_sweep shahash onePeer hdown hentry hr hbytes hneed
  have hme : me.Inv :=
    exec_invariant Inv (fun _ _ _ hme hnext => hme.next hnext) (inv_init onePeer) hrun
  obtain ⟨x', r', m', hs⟩ := sweep_swept hme.lists hsweep
  have hnode := hs.node
  rw [hdown, List.getElem?_cons_zero, Option.some.injEq] at hnode
  subst hnode
  cases hs.receiver.symm.trans hr
  cases (joined_of_merge hm).symm.trans hs.joined
  exact ⟨me, me', x, r, hrun, hsweep, hs, hentry, hneed, hout⟩

end Mydownload

theorem exists_other_hash (h : Hash) : ∃ h' : Hash, h' ≠ h := by
  by_cases hzero : h = Vector.replicate hashSize 0
  · exact ⟨Vector.replicate hashSize 1, by rw [hzero]; decide⟩
  · exact ⟨Vector.replicate hashSize 0, Ne.symm hzero⟩

open Mydownload in
/-- **A forged chunk**: all data packets of a chunk of zeros under another hash. The chunk is given
up, and nothing was written. -/
theorem forged_chunk_given_up : ¬ ∃ shahash : List UInt8 → Hash, ∀ config es,
    Always (next shahash config) (Kept shahash) (initMydownload config) es := by
  rintro ⟨shahash, hall⟩
  have hlen : (List.replicate chunkSize (0 : UInt8)).length = chunkSize := List.length_replicate
  obtain ⟨h, hne⟩ := exists_other_hash (shahash (List.replicate chunkSize 0))
  obtain ⟨me, me', x, r, hrun, hsweep, hs, hentry, -, hout⟩ :=
    exists_chunkRun_swept shahash 0 h hlen
  have hkept := Always.of_exec
    (hall onePeer ((chunkRun 0 h (List.replicate chunkSize 0) ++ [.finish 0]) ++ []))
    (exec_snoc hrun hsweep)
  have hforged : me'.outputFd = .opened := by
    rw [hs.kept, hout]
    rintro ⟨-, hsha⟩
    exact hne ((congrArg Prod.snd hentry).symm.trans hsha.symm)
  obtain ⟨pos, bytes, hmem, -⟩ := hkept x.entry (by rw [hs.givenUp]; exact List.mem_cons_self)
  rw [hforged] at hmem
  exact absurd hmem List.not_mem_nil

open Mydownload in
/-- **A chunk far behind**: chunk 8192 arrives as it should, and is written at the start of the
file. -/
theorem far_chunk_misplaced : ¬ ∃ shahash : List UInt8 → Hash, ∀ config es,
    EachStep (next shahash config) (WritesInPlace shahash) (initMydownload config) es := by
  rintro ⟨shahash, hall⟩
  have hlen : (List.replicate chunkSize (0 : UInt8)).length = chunkSize := List.length_replicate
  obtain ⟨me, me', x, r, hrun, hsweep, hs, hentry, hneed, hout⟩ :=
    exists_chunkRun_swept shahash 8192 (shahash (List.replicate chunkSize 0)) hlen
  have hstep := (hall onePeer (chunkRun 8192 (shahash (List.replicate chunkSize 0))
    (List.replicate chunkSize 0) ++ [.finish 0])).of_exec hrun hsweep
  have hblocks := hs.blocks hlen (congrArg Prod.snd hentry).symm
  rcases hstep with ⟨entries, heq, -⟩ | hsame |
    ⟨k, curr, pos, bytes, -, -, hnew, -, entry, hmem, hpos, -⟩
  · cases heq
  · rw [hsame] at hblocks
    exact absurd hblocks.symm (List.cons_ne_self _ _)
  · rw [hblocks] at hnew
    cases hnew
    rw [hneed, List.mem_singleton] at hmem
    rw [lseek_pos_iff, hmem, show x.chunkid = 8192 from congrArg Prod.fst hentry] at hpos
    exact absurd hpos (by simp [Lands, createNode])

end P2P
