import P2P.Digest.Collision
import P2P.Digest.Streaming
import P2P.Peer.DiskRuns
import P2P.Peer.MakeChunks
import P2P.Peer.Publish

/-!
# From a published file to the disk

`make-chunks` as a program: it counts the chunks of a file, hashes them into an array of that many
hashes, and prints the array. `GET` reads the text back as the chunks that are needed.

* `make_chunks_prints`: no hash is written behind the array, and the text says which chunks the file
  has;
* `published_file_on_disk`: in a run of GETs for it, whatever packets come, every block written is
  that part of the file, or collides with it in `SHA1Guts`.
-/

namespace P2P

open Lib

/-- The hash `shahash` stores. -/
def chunkHash (o : ByteOrder) (sha : Vector UInt8 64) (str : List UInt8) : Hash :=
  (shahash o sha str).getD (Vector.replicate hashSize 0)

/-! ## `make-chunks` -/

section
variable (hash : List UInt8 → Hash)

/-- `get_numchunks`, for a file whose size a `double` holds and whose chunks an `int` counts. -/
def getNumchunks (size : Nat) : Option Nat :=
  if size ≤ (2 ^ 31 - 1) * chunkSize then some ((size + (chunkSize - 1)) / chunkSize) else none

/-- The loop of `make_chunks` from `chunk_hashes[numchunks]` on; `none` for a hash behind the
array. -/
def makeChunksLoop (fp : List UInt8) (chunkHashes : List Hash) (numchunks : Nat) :
    Option (List Hash × Nat) :=
  if fp = [] then some (chunkHashes, numchunks)
  else if numchunks < chunkHashes.length then
    makeChunksLoop (fp.drop chunkSize) (chunkHashes.set numchunks (hash (fp.take chunkSize)))
      (numchunks + 1)
  else none
termination_by fp.length
decreasing_by
  rename_i h _
  have hpos := List.length_pos_iff.mpr h
  have hcs : 0 < chunkSize := by decide
  rw [List.length_drop]
  omega

/-- `main` of `make_chunks.c`: what is printed for a file, where `malloc` returns `memory`. -/
def makeChunksMain (memory : Nat → Hash) (file : List UInt8) : Option (List UInt8) :=
  (getNumchunks file.length).bind fun numchunks =>
    (makeChunksLoop hash file ((List.range numchunks).map memory) 0).map fun r =>
      printHashes (r.1.take r.2)

/-- The chunks of a file with their hashes. -/
def publishedEntries (file : List UInt8) : List (Int × Hash) :=
  (makeChunks hash file).zipIdx.map fun e => ((e.2 : Int), e.1)

end

variable {hash : List UInt8 → Hash} {file : List UInt8}

theorem chunkHash_eq (o : ByteOrder) (sha : Vector UInt8 64) : chunkHash o sha = Standard.sha1 := by
  funext str
  rw [chunkHash, shahash_eq, Option.getD_some]

theorem length_makeChunks (hash : List UInt8 → Hash) (file : List UInt8) :
    (makeChunks hash file).length = (file.length + (chunkSize - 1)) / chunkSize := by
  have hcs : chunkSize = 524288 := rfl
  induction file using makeChunks.induct with
  | case1 => rw [makeChunks, if_pos rfl]; rfl
  | case2 file h ih =>
    have hpos := List.length_pos_iff.mpr h
    rw [makeChunks, if_neg h, List.length_cons, ih, List.length_drop, hcs]
    omega

theorem makeChunksLoop_eq (hash : List UInt8 → Hash) (file : List UInt8) (written free : List Hash)
    (h : (makeChunks hash file).length ≤ free.length) :
    makeChunksLoop hash file (written ++ free) written.length =
      some (written ++ makeChunks hash file ++ free.drop (makeChunks hash file).length,
        written.length + (makeChunks hash file).length) := by
  induction file using makeChunks.induct generalizing written free with
  | case1 =>
    rw [makeChunksLoop, if_pos rfl, makeChunks, if_pos rfl, List.append_nil]
    rfl
  | case2 file hne ih =>
    rw [makeChunks, if_neg hne] at h ⊢
    cases free with
    | nil => exact absurd h (Nat.not_succ_le_zero _)
    | cons old free =>
      have hroom : written.length < (written ++ old :: free).length := by
        rw [List.length_append, List.length_cons]
        omega
      have hset : (written ++ old :: free).set written.length (hash (file.take chunkSize)) =
          (written ++ [hash (file.take chunkSize)]) ++ free := by
        rw [List.set_append_right _ _ le_rfl, Nat.sub_self, List.set_cons_zero,
          List.append_assoc, List.singleton_append]
      have hnext := ih (written ++ [hash (file.take chunkSize)]) free (Nat.le_of_succ_le_succ h)
      rw [List.length_append, List.length_singleton] at hnext
      rw [makeChunksLoop, if_neg hne, if_pos hroom, hset, hnext, List.length_cons,
        List.drop_succ_cons, List.append_assoc, List.append_assoc, List.append_assoc,
        List.singleton_append, List.cons_append, Nat.add_assoc, Nat.add_comm 1]

theorem publishedEntries_eq : publishedEntries hash file =
    (printedFile (makeChunks hash file)).entries := by
  rw [ChunkListFile.entries_printedFile]
  rfl

theorem mem_publishedEntries {entry : Int × Hash} (h : entry ∈ publishedEntries hash file) :
    ∃ i : Nat, entry = ((i : Int), hash (fileChunk file i)) ∧ i * chunkSize < file.length := by
  obtain ⟨⟨x, i⟩, hmem, rfl⟩ := List.mem_map.mp h
  have hget := List.mem_zipIdx_iff_getElem?.mp hmem
  have hchunk := makeChunks_getElem? hash file i
  simp only at hget
  rw [hget] at hchunk
  split at hchunk
  · cases hchunk
  · rename_i hne
    refine ⟨i, by rw [Option.some.inj hchunk], ?_⟩
    by_contra hle
    apply hne
    rw [fileChunk, List.drop_of_length_le (by omega), List.take_nil]

/-! ## What is printed -/

/-- **`make-chunks` writes no hash behind its array**, and a GET reads what it prints as the chunks
of the file with their SHA-1. -/
theorem make_chunks_prints (o : ByteOrder) (sha : Vector UInt8 64) (memory : Nat → Hash)
    (config : Config) (chunkid : Int) (hsize : file.length ≤ (2 ^ 31 - 1) * chunkSize) :
    ∃ text, makeChunksMain (chunkHash o sha) memory file = some text ∧
      resetMydownloadFile config chunkid text =
        some (resetMydownload config (publishedEntries Standard.sha1 file)) := by
  have hcount := length_makeChunks (chunkHash o sha) file
  have hlen : ((List.range ((file.length + (chunkSize - 1)) / chunkSize)).map memory).length =
      (makeChunks (chunkHash o sha) file).length := by
    rw [List.length_map, List.length_range, hcount]
  have hloop := makeChunksLoop_eq (chunkHash o sha) file [] _ hlen.ge
  rw [← hlen, List.drop_length, hlen, List.append_nil, List.nil_append, List.nil_append,
    List.length_nil, Nat.zero_add] at hloop
  refine ⟨printHashes (makeChunks (chunkHash o sha) file), ?_, ?_⟩
  · rw [makeChunksMain, getNumchunks, if_pos hsize, Option.bind_some, hloop, Option.map_some,
      List.take_length]
  · have hk : (makeChunks (chunkHash o sha) file).length < 2 ^ 31 := by
      have hcs : chunkSize = 524288 := rfl
      rw [hcount]
      rw [hcs] at hsize ⊢
      omega
    rw [← ChunkListFile.text_printedFile, (ChunkListFile.readable_printedFile _ hk).reset,
      ← publishedEntries_eq, chunkHash_eq]

/-- A file of one byte. -/
theorem make_chunks_prints_one :
    ∃ text, makeChunksMain (chunkHash .big (Vector.replicate 64 0)) (fun _ => Vector.replicate 20 0)
        [7] = some text ∧
      resetMydownloadFile ⟨4, ⟨0, 1⟩⟩ 0 text =
        some (resetMydownload ⟨4, ⟨0, 1⟩⟩ (publishedEntries Standard.sha1 [7])) :=
  make_chunks_prints .big _ _ _ 0 (by decide)

/-! ## What is written -/

namespace Mydownload

variable {config : Config} {me me' : Mydownload} {e : DownloadEvent}

/-- The blocks of the file on disk have the hashes of the chunks published for their places. -/
structure OfFile (hash : List UInt8 → Hash) (file : List UInt8) (me : Mydownload) : Prop where
  inv : me.Inv
  needed : ∀ entry ∈ me.conn.needlist.map HashChunk.entry, entry ∈ publishedEntries hash file
  blocks : ∀ pos bytes, (pos, bytes) ∈ me.outputFd.blocks → ∃ i : Nat, pos = i * chunkSize ∧
    bytes.length = chunkSize ∧ hash bytes = hash (fileChunk file i)

theorem OfFile.init (config : Config) : (initMydownload config).OfFile hash file :=
  ⟨inv_init config, fun _ h => absurd h List.not_mem_nil, fun _ _ h => absurd h List.not_mem_nil⟩

/-- **Every event** of a GET for the file keeps the blocks those of the file. -/
theorem OfFile.next (hsize : file.length ≤ 4096 * chunkSize) (hme : me.OfFile hash file)
    (he : ∀ entries, e = .reset entries → entries ⊆ publishedEntries hash file)
    (h : me.next hash config e = some me') : me'.OfFile hash file := by
  refine ⟨hme.inv.next h, ?_, ?_⟩
  all_goals
    rcases next_cases hme.inv.lists h with ⟨entries, rfl, hout, -, -, hperm⟩ |
      ⟨k, curr, recver, m, -, hs⟩ | ⟨-, heq, hneed⟩
  · exact fun entry hentry => he entries rfl (hperm.subset hentry)
  · exact fun entry hentry =>
      hme.needed entry (hs.removed.subset (List.mem_cons_of_mem _ hentry))
  · rw [hneed]
    exact hme.needed
  · rw [hout]
    exact fun _ _ hmem => absurd hmem List.not_mem_nil
  · by_cases hm : m.length = chunkSize ∧ hash m = curr.hash
    · rw [hs.blocks hm.1 hm.2]
      intro pos bytes hmem
      rcases List.mem_cons.mp hmem with heq | hold
      · -- the block just written
        obtain ⟨rfl, rfl⟩ := Prod.mk.inj heq
        obtain ⟨i, hi, hlt⟩ :=
          mem_publishedEntries (hme.needed _ (hs.removed.subset List.mem_cons_self))
        obtain ⟨hid, hhash⟩ := Prod.mk.inj hi
        have hi : i < 4096 := Nat.lt_of_mul_lt_mul_right (Nat.lt_of_lt_of_le hlt hsize)
        have hland : Lands me.outputFd curr.chunkid i :=
          hid ▸ lands_of_lt (by omega) (by omega)
        have hpos := (lseek_pos_iff me.outputFd curr.chunkid i).mpr hland
        exact ⟨i, by exact_mod_cast hpos, hm.1, hm.2.trans hhash⟩
      · exact hme.blocks pos bytes hold
    · rw [hs.kept hm]
      exact hme.blocks
  · rw [heq]
    exact hme.blocks

end Mydownload

open Mydownload Standard in
/-- **What is on disk is the file that was published**, or a collision was found: after GETs for
chunks of a file of at most 2 GiB and any packets in any order, a block that is not that part of the
file made `SHA1Guts` return the same for two different inputs, one met on hashing the block and one
on hashing that part of the file. -/
theorem published_file_on_disk (o : ByteOrder) (sha : Vector UInt8 64) (config : Config)
    {file : List UInt8} (hsize : file.length ≤ 4096 * chunkSize) {es : List DownloadEvent}
    (hes : ∀ entries, .reset entries ∈ es → entries ⊆ publishedEntries (chunkHash o sha) file)
    {me : Mydownload}
    (h : exec (next (chunkHash o sha) config) (initMydownload config) es = some me) :
    ∀ pos bytes, (pos, bytes) ∈ me.outputFd.blocks →
      bytes = (file.drop pos).take chunkSize ∨
        Collide (sha1Guts o) iv (messageBlocks bytes)
          (messageBlocks ((file.drop pos).take chunkSize)) := by
  have hme : me.OfFile (chunkHash o sha) file :=
    exec_invariant_of (fun e => ∀ entries, e = .reset entries →
        entries ⊆ publishedEntries (chunkHash o sha) file) (OfFile (chunkHash o sha) file)
      (fun _ _ _ he hme hnext => hme.next hsize he hnext)
      (fun e he entries heq => hes entries (by rw [← heq]; exact he)) (.init config) h
  intro pos bytes hmem
  obtain ⟨i, rfl, hlen, hhash⟩ := hme.blocks pos bytes hmem
  by_cases heq : bytes = fileChunk file i
  · exact .inl heq
  · have hguts : sha1Guts o = compress := by
      funext v block
      exact sha1Guts_eq o block v
    have hchunk : (fileChunk file i).length ≤ chunkSize := List.length_take_le ..
    have hcs : chunkSize < 2 ^ 61 := by decide
    rw [chunkHash_eq] at hhash
    right
    rw [hguts]
    exact sha1_collision (hlen ▸ hcs) (Nat.lt_of_le_of_lt hchunk hcs) heq hhash

theorem first_published {hash : List UInt8 → Hash} {file : List UInt8}
    (h : file.length = chunkSize) : ((0 : Int), hash file) ∈ publishedEntries hash file := by
  have hcs : 0 < chunkSize := by decide
  have hchunk : fileChunk file 0 = file := by
    rw [fileChunk, Nat.zero_mul, List.drop_zero, List.take_of_length_le h.le]
  have hne : file ≠ [] := List.ne_nil_of_length_pos (h ▸ hcs)
  have hget := makeChunks_getElem? hash file 0
  rw [hchunk, if_neg hne] at hget
  exact List.mem_map.mpr ⟨(hash file, 0), List.mem_zipIdx_iff_getElem?.mpr hget, rfl⟩

theorem reset_mem_chunkRun {c : Int} {h : Hash} {data : List UInt8} {entries : List (Int × Hash)}
    (hmem : .reset entries ∈ Mydownload.chunkRun c h data ++ [.finish 0]) :
    entries = [(c, h)] := by
  rcases List.mem_append.mp hmem with hmem | hmem
  · rcases List.mem_append.mp hmem with hmem | hmem
    · simpa using hmem
    · obtain ⟨p, -, heq⟩ := List.mem_map.mp hmem
      cases heq
  · simp at hmem

open Mydownload in
theorem first_chunk_written (hash : List UInt8 → Hash) {file : List UInt8}
    (hlen : file.length = chunkSize) :
    ∃ me, exec (next hash onePeer) (initMydownload onePeer)
        (chunkRun 0 (hash file) file ++ [.finish 0]) = some me ∧
      (0, file) ∈ me.outputFd.blocks := by
  obtain ⟨me, me', x, r, hrun, hsweep, hs, hentry, -, hout⟩ :=
    exists_chunkRun_swept hash 0 (hash file) hlen
  obtain ⟨hid, hhash⟩ := Prod.mk.inj hentry
  refine ⟨me', exec_snoc hrun hsweep, ?_⟩
  rw [hs.blocks hlen hhash.symm, hout, hid]
  exact List.mem_cons_self

open Mydownload in
/-- A file of one chunk: the block written is the file. -/
theorem published_chunk_on_disk :
    ∃ me, exec (next (chunkHash .little (Vector.replicate 64 0)) onePeer) (initMydownload onePeer)
        (chunkRun 0 (chunkHash .little (Vector.replicate 64 0) (List.replicate chunkSize 0))
          (List.replicate chunkSize 0) ++ [.finish 0]) = some me ∧
      (0, List.replicate chunkSize 0) ∈ me.outputFd.blocks ∧
      ∀ pos bytes, (pos, bytes) ∈ me.outputFd.blocks →
        bytes = ((List.replicate chunkSize 0).drop pos).take chunkSize ∨
          Collide (sha1Guts .little) Standard.iv (Standard.messageBlocks bytes)
            (Standard.messageBlocks (((List.replicate chunkSize 0).drop pos).take chunkSize)) := by
  have hlen : (List.replicate chunkSize (0 : UInt8)).length = chunkSize := List.length_replicate
  have hsize : (List.replicate chunkSize (0 : UInt8)).length ≤ 4096 * chunkSize := by
    rw [hlen]
    decide
  obtain ⟨me, hexec, hmem⟩ :=
    first_chunk_written (chunkHash .little (Vector.replicate 64 0)) hlen
  refine ⟨me, hexec, hmem, published_file_on_disk .little (Vector.replicate 64 0) onePeer hsize
    (fun entries hentries => ?_) hexec⟩
  rw [reset_mem_chunkRun hentries]
  exact List.cons_subset.mpr ⟨first_published hlen, List.nil_subset _⟩

end P2P
