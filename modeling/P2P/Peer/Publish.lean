import P2P.Peer.Disk
import P2P.Peer.UploadHistory
import P2P.Transfer.Chunk

/-!
# Publishing a file

`make_chunks` hashes a file in pieces of `CHUNK_SIZE` bytes, the last one as short as it is.
`send_onechunk` reads a piece with `pread` into a zeroed buffer, at an offset computed as an
`int`, and always sends `CHUNK_SIZE` bytes.

`published_agrees_iff`: the hash published for a chunk is that of the bytes a downloader
receives exactly if the chunk is whole and its offset does not overflow, or overflows to a
place with the same bytes.
-/

namespace P2P

open Lib

variable {H : Type}

/-! ## The two sides -/

/-- `make_chunks`, one `fread` after the other: the hashes. -/
def makeChunks (shahash : List UInt8 → H) (fp : List UInt8) : List H :=
  if fp = [] then [] else shahash (fp.take chunkSize) :: makeChunks shahash (fp.drop chunkSize)
termination_by fp.length
decreasing_by
  rename_i h
  have hpos := List.length_pos_iff.mpr h
  have hcs : 0 < chunkSize := by decide
  rw [List.length_drop]
  omega

/-- `pread`; a negative offset is refused. -/
def pread (datafile : List UInt8) (count : Nat) (offset : Int) : List UInt8 :=
  if 0 ≤ offset then (datafile.drop offset.toNat).take count else []

/-- The packets of a window, as a peer decodes them. -/
def Window.packets (sw : Window) : List Packet :=
  (List.range (sw.LPR - 1).toNat).filterMap fun k : Nat =>
    (sw.senderBuf.read (1 + k)).map Packet.onWire

/-- Chunk `i` of a file is served, and whoever receives `CHUNK_SIZE` bytes from its packets, in
whatever order they come, gets bytes with the hash published for the chunk. -/
def Agrees (shahash : List UInt8 → H) (file : List UInt8) (i : Nat) (hash : Hash)
    (dst : SockAddr) : Prop :=
  ∃ sw r, sendOnechunk (some (pread file chunkSize (chunkPos i 0))) (createSW hash dst) =
      some (sw, r) ∧
    ∀ packs rev, (∀ p ∈ packs, p ∈ sw.packets) →
      exec RecvState.next (createRecver hash) packs = some rev → rev.recvBytesnum = chunkSize →
      ∃ data, rev.merge = some data ∧ (makeChunks shahash file)[i]? = some (shahash data)

/-! ## The pieces of a file -/

/-- Chunk `i` of a file. -/
def fileChunk (file : List UInt8) (i : Nat) : List UInt8 :=
  (file.drop (i * chunkSize)).take chunkSize

theorem makeChunks_getElem? (shahash : List UInt8 → H) (file : List UInt8) (i : Nat) :
    (makeChunks shahash file)[i]? =
      if fileChunk file i = [] then none else some (shahash (fileChunk file i)) := by
  induction i generalizing file with
  | zero =>
    rw [makeChunks, fileChunk, Nat.zero_mul, List.drop_zero]
    by_cases h : file = []
    · simp [h]
    · rw [if_neg h, if_neg]
      · rfl
      · simpa using h
  | succ i ih =>
    have hnext : fileChunk file (i + 1) = fileChunk (file.drop chunkSize) i := by
      rw [fileChunk, fileChunk, List.drop_drop, Nat.succ_mul, Nat.add_comm]
    rw [makeChunks, hnext, ← ih]
    by_cases h : file = []
    · rw [if_pos h, h, List.drop_nil, makeChunks]
      rfl
    · rw [if_neg h, List.getElem?_cons_succ]

/-- `offset*CHUNK_SIZE` as an `int`: 8192 chunks are 4 GiB. -/
theorem chunkPos_eq (i : Nat) :
    chunkPos i 0 = if i % 8192 < 4096 then ((i % 8192 * chunkSize : Nat) : Int)
      else ((i % 8192 * chunkSize : Nat) : Int) - 2 ^ 32 := by
  have hmod : ((i : Int) * 524288) % 2 ^ 32 = ((i % 8192 * 524288 : Nat) : Int) := by omega
  have hpos : toI32 (i * 524288) = if i % 8192 < 4096 then ((i % 8192 * 524288 : Nat) : Int)
      else ((i % 8192 * 524288 : Nat) : Int) - 2 ^ 32 := by
    rw [toI32_eq, hmod]
    split <;> split <;> omega
  show toI32 (toI32 (i * 524288) + 0) = if i % 8192 < 4096 then ((i % 8192 * 524288 : Nat) : Int)
    else ((i % 8192 * 524288 : Nat) : Int) - 2 ^ 32
  rw [add_zero, hpos]
  apply toI32_eq_self <;> split <;> omega

theorem pread_chunkPos (file : List UInt8) (i : Nat) :
    pread file chunkSize (chunkPos i 0) =
      if i % 8192 < 4096 then fileChunk file (i % 8192) else [] := by
  rw [pread, chunkPos_eq]
  by_cases h : i % 8192 < 4096
  · rw [if_pos h, if_pos h, if_pos (Int.natCast_nonneg _), Int.toNat_natCast]
    rfl
  · have hneg : ¬ 0 ≤ ((i % 8192 * 524288 : Nat) : Int) - 2 ^ 32 := by omega
    rw [if_neg h, if_neg h]
    exact if_neg hneg

/-! ## What is served -/

/-- Bytes filled up with zeros to a whole chunk. -/
def padded (bytes : List UInt8) : List UInt8 :=
  bytes ++ List.replicate (chunkSize - bytes.length) 0

theorem length_padded {bytes : List UInt8} (h : bytes.length ≤ chunkSize) :
    (padded bytes).length = chunkSize := by
  rw [padded, List.length_append, List.length_replicate]
  exact Nat.add_sub_cancel' h

theorem padded_of_length {bytes : List UInt8} (h : bytes.length = chunkSize) :
    padded bytes = bytes := by
  rw [padded, h, Nat.sub_self, List.replicate_zero, List.append_nil]

theorem chunkPack_take (data : List UInt8) {i : Int} (h1 : 1 ≤ i) (h2 : i ≤ 512) :
    chunkPack (data.take chunkSize) i = chunkPack data i := by
  have hmin : min 1024 (524288 - 1024 * (i - 1).toNat) = 1024 := by omega
  rw [chunkPack_eq h1 h2, chunkPack_eq h1 h2]
  show formDataPack ((data.take 524288).drop (1024 * (i - 1).toNat)) 1024 i =
    formDataPack (data.drop (1024 * (i - 1).toNat)) 1024 i
  unfold formDataPack
  rw [List.drop_take, List.take_take, hmin]

/-- **`send_onechunk`** puts the bytes read, filled up with zeros, into packets. -/
theorem sendOnechunk_packets {bytes : List UInt8} (h : bytes.length ≤ chunkSize) (hash : Hash)
    (dst : SockAddr) :
    ∃ sw, sendOnechunk (some bytes) (createSW hash dst) = some (sw, 1) ∧
      sw.packets = RecvState.chunkPacks (padded bytes) 512 := by
  obtain ⟨sw, hrun, hadd⟩ := UploadConn.sendOnechunk_some bytes hash dst
  have hbuf : (UploadConn.chunkBuffer bytes).take chunkSize = padded bytes := by
    rw [UploadConn.chunkBuffer, List.take_of_length_le h, List.take_append,
      List.take_of_length_le h, List.take_replicate, Nat.min_eq_left (by omega), padded]
  have hlpr : sw.LPR = 513 := by rw [hadd.frame]; rfl
  refine ⟨sw, hrun, ?_⟩
  have hread : ∀ k ∈ List.range 512, (sw.senderBuf.read (1 + (k : Int))).map Packet.onWire =
      some (chunkPack (padded bytes) (1 + k)) := by
    intro k hk
    rw [List.mem_range] at hk
    have hslot : sw.senderBuf.read (1 + (k : Int)) =
        some (chunkPack (UploadConn.chunkBuffer bytes) (1 + k)) := by
      rw [hadd.slot, if_pos ⟨by simp [createSW], by simp only [createSW]; omega⟩, Nat.zero_add]
      rfl
    rw [hslot, Option.map_some, ← hbuf, chunkPack_take _ (by omega) (by omega),
      chunkPack_onWire (by omega) (by omega) rfl]
  have hlast : (sw.LPR - 1).toNat = 512 := by omega
  rw [Window.packets, hlast, List.filterMap_congr hread, RecvState.chunkPacks,
    List.filterMap_eq_map']

/-- **Whoever receives `CHUNK_SIZE` bytes** of a chunk's packets has the chunk. -/
theorem merge_of_chunkPacks {data : List UInt8} (hlen : data.length = chunkSize) {hash : Hash}
    {packs : List Packet} {rev : RecvState}
    (hpacks : ∀ p ∈ packs, p ∈ RecvState.chunkPacks data 512)
    (hrun : exec RecvState.next (createRecver hash) packs = some rev)
    (hbytes : rev.recvBytesnum = chunkSize) : rev.merge = some data := by
  have hcs : chunkSize = 524288 := rfl
  have hholds : rev.Holds data := by
    refine exec_invariant_of (fun p => p ∈ RecvState.chunkPacks data 512) (RecvState.Holds data)
      (fun r p r' hp hr hnext => ?_) hpacks (.createRecver data hash) hrun
    obtain ⟨k, hk, rfl⟩ := List.mem_map.mp hp
    rw [List.mem_range] at hk
    exact hr.next (by omega) (by omega) hnext
  have hcount := hholds.bytes
  exact hholds.merge hlen (by omega)

theorem length_pread_le (file : List UInt8) (count : Nat) (offset : Int) :
    (pread file count offset).length ≤ count := by
  unfold pread
  split
  · exact List.length_take_le ..
  · exact Nat.zero_le _

theorem agrees_iff (shahash : List UInt8 → H) (file : List UInt8) (i : Nat) (hash : Hash)
    (dst : SockAddr) :
    Agrees shahash file i hash dst ↔ (makeChunks shahash file)[i]? =
      some (shahash (padded (pread file chunkSize (chunkPos i 0)))) := by
  have hread := length_pread_le file chunkSize (chunkPos i 0)
  have hlen := length_padded hread
  obtain ⟨sw, hsend, hpacks⟩ := sendOnechunk_packets hread hash dst
  constructor
  · rintro ⟨sw', r, hsend', hall⟩
    rw [hsend, Option.some.injEq, Prod.mk.injEq] at hsend'
    obtain ⟨rfl, rfl⟩ := hsend'
    obtain ⟨rev, hrun, -, hbytes, hmerge⟩ := RecvState.exists_chunkReceived hlen hash
    obtain ⟨data, hdata, hhash⟩ := hall _ rev (fun p hp => hpacks ▸ hp) hrun hbytes
    rw [hmerge, Option.some.injEq] at hdata
    rw [hdata]
    exact hhash
  · intro hhash
    refine ⟨sw, 1, hsend, fun packs rev hsub hrun hbytes => ⟨_, ?_, hhash⟩⟩
    exact merge_of_chunkPacks hlen (fun p hp => hpacks ▸ hsub p hp) hrun hbytes

/-! ## When they agree -/

/-- The chunk is whole, and `pread` is given its place in the file or one with the same bytes: the
place of chunk `i % 8192`, or none if that is behind the first 2 GiB. -/
structure Published (file : List UInt8) (i : Nat) : Prop where
  whole : (i + 1) * chunkSize ≤ file.length
  wrapped : i % 8192 < 4096 → fileChunk file (i % 8192) = fileChunk file i
  refused : 4096 ≤ i % 8192 → fileChunk file i = List.replicate chunkSize 0

theorem length_fileChunk (file : List UInt8) (i : Nat) :
    (fileChunk file i).length = min chunkSize (file.length - i * chunkSize) := by
  rw [fileChunk, List.length_take, List.length_drop]

theorem length_fileChunk_iff {file : List UInt8} {i : Nat} :
    (fileChunk file i).length = chunkSize ↔ (i + 1) * chunkSize ≤ file.length := by
  have hpos : 0 < chunkSize := by decide
  have hmul : (i + 1) * chunkSize = i * chunkSize + chunkSize := Nat.succ_mul i chunkSize
  rw [length_fileChunk]
  omega

/-- **The bytes served are the chunk.** -/
theorem published_iff {file : List UInt8} {i : Nat} :
    fileChunk file i = padded (pread file chunkSize (chunkPos i 0)) ↔ Published file i := by
  have hlen := length_padded (length_pread_le file chunkSize (chunkPos i 0))
  -- with chunk `i` the chunks before it are whole
  have hread : (i + 1) * chunkSize ≤ file.length →
      padded (pread file chunkSize (chunkPos i 0)) =
        if i % 8192 < 4096 then fileChunk file (i % 8192) else List.replicate chunkSize 0 := by
    intro hwhole
    rw [pread_chunkPos]
    split
    · have hle : (i % 8192 + 1) * chunkSize ≤ file.length :=
        le_trans (Nat.mul_le_mul_right _ (Nat.succ_le_succ (Nat.mod_le i 8192))) hwhole
      exact padded_of_length (length_fileChunk_iff.mpr hle)
    · rw [padded, List.nil_append, List.length_nil, Nat.sub_zero]
  constructor
  · intro h
    have hwhole := length_fileChunk_iff.mp (h ▸ hlen)
    rw [hread hwhole] at h
    refine ⟨hwhole, fun hlt => ?_, fun hge => ?_⟩
    · rw [if_pos hlt] at h
      exact h.symm
    · rw [if_neg (by omega)] at h
      exact h
  · rintro ⟨hwhole, hwrapped, hrefused⟩
    rw [hread hwhole]
    split
    · rename_i hlt
      exact (hwrapped hlt).symm
    · exact hrefused (by omega)

/-- In the first 2 GiB of a file the whole chunks are the ones. -/
theorem published_iff_of_lt {file : List UInt8} {i : Nat} (h : i < 4096) :
    Published file i ↔ (i + 1) * chunkSize ≤ file.length := by
  have hmod : i % 8192 = i := Nat.mod_eq_of_lt (by omega)
  exact ⟨fun hp => hp.whole, fun hw => ⟨hw, fun _ => by rw [hmod], fun h' => by omega⟩⟩

/-- **Publisher and downloader agree on the hash of a chunk** exactly if it is whole and read from a
place with its bytes. -/
theorem published_agrees_iff {shahash : List UInt8 → H} (hinj : Function.Injective shahash)
    (file : List UInt8) (i : Nat) (hash : Hash) (dst : SockAddr) :
    Agrees shahash file i hash dst ↔ Published file i := by
  rw [agrees_iff, makeChunks_getElem?, ← published_iff]
  have hpos : 0 < chunkSize := by decide
  split
  · rename_i hnil
    refine ⟨fun h => (nomatch h), fun h => ?_⟩
    have hlen := length_padded (length_pread_le file chunkSize (chunkPos i 0))
    rw [← h, hnil, List.length_nil] at hlen
    omega
  · rw [Option.some.injEq]
    exact ⟨fun h => hinj h, fun h => by rw [h]⟩

/-- One chunk of zeros. -/
theorem published_one_chunk :
    Agrees id (List.replicate chunkSize 0) 0 (Vector.replicate hashSize 0) ⟨0, 0⟩ := by
  refine (published_agrees_iff Function.injective_id _ 0 _ _).mpr ?_
  rw [published_iff_of_lt (by decide), List.length_replicate, Nat.zero_add, Nat.one_mul]

/-- A file of one byte: the byte is hashed, and what is served is that byte and zeros. -/
theorem short_chunk_differs : (makeChunks id [7]).length = 1 ∧
    ∀ hash dst, ¬ Agrees id [7] 0 hash dst := by
  have hdrop : ([7] : List UInt8).drop chunkSize = [] := rfl
  have hchunk : fileChunk [7] 0 = [7] := rfl
  constructor
  · rw [makeChunks, if_neg (List.cons_ne_nil _ _), hdrop, makeChunks, if_pos rfl]
    rfl
  · intro hash dst h
    have hlen := length_padded (length_pread_le [7] chunkSize (chunkPos (0 : Nat) 0))
    rw [agrees_iff, makeChunks_getElem?, hchunk, if_neg (List.cons_ne_nil _ _),
      Option.some.injEq] at h
    have hone : padded (pread [7] chunkSize (chunkPos (0 : Nat) 0)) = [7] := h.symm
    rw [hone] at hlen
    exact absurd hlen (by decide)

end P2P
