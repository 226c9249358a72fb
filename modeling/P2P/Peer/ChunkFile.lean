import Mathlib.Data.Set.Defs
import P2P.Lib.Runs
import P2P.Peer.DiskRuns

/-!
# The bytes of a chunk in its file

The two places in the code where chunk ids become file positions, and the loop around
`write` in `reap`, for every behaviour of `write`.

* `chunk_places_iff`: two chunks have the places of their ids, and no byte in common,
  exactly if the positions of both fit in an `int`;
* `write_loop_iff`: the loop stays in the buffer, fills the range of the chunk with it and
  makes `reap` return `CHUNK_SIZE` exactly if no `write` fails while nothing is written and
  the last one writes the whole chunk.
-/

namespace P2P

open Lib

/-! ## Chunk ids and positions -/

/-- `offset*CHUNK_SIZE`, the position `send_onechunk` gives to `pread`. -/
def preadPos (offset : Int) : Int := toI32 (offset * chunkSize)

/-- The positions of a chunk that is read, and written from `ret` on for each `ret` up to `bound`,
are the integers they are meant to be. -/
structure Placed (bound c : Int) : Prop where
  read : preadPos c = c * chunkSize
  written : ∀ ret, 0 ≤ ret → ret ≤ bound → chunkPos c ret = c * chunkSize + ret

/-- The bytes of the file that are read for a chunk or may be written for it. -/
def touched (bound c : Int) : Set Int :=
  {i | (∃ j, 0 ≤ j ∧ j < chunkSize ∧ i = preadPos c + j) ∨
    ∃ ret j, 0 ≤ ret ∧ ret ≤ bound ∧ 0 ≤ j ∧ j < chunkSize - ret ∧ i = chunkPos c ret + j}

/-- Two chunks have their places, in the file and apart from each other. -/
structure Apart (bound c c' : Int) : Prop where
  left : Placed bound c
  right : Placed bound c'
  nonneg : ∀ i ∈ touched bound c ∪ touched bound c', 0 ≤ i
  disjoint : ∀ i ∈ touched bound c, i ∉ touched bound c'

section
variable {bound c c' : Int}

theorem toI32_lt (z : Int) : toI32 z < 2 ^ 31 := by
  rw [toI32_eq]
  split <;> omega

theorem placed_iff (hc : 0 ≤ c) (hbound : 0 ≤ bound) (hle : bound ≤ chunkSize) :
    Placed bound c ↔ c * chunkSize + bound < 2 ^ 31 := by
  have hcs : (chunkSize : Int) = 524288 := rfl
  rw [hcs] at hle ⊢
  constructor
  · intro h
    have hlast := h.written bound hbound (le_refl bound)
    have := toI32_lt (toI32 (c * chunkSize) + bound)
    rw [chunkPos, hcs] at hlast
    rw [hcs] at this
    omega
  · intro hfits
    have hprod : toI32 (c * 524288) = c * 524288 := toI32_eq_self (by omega) (by omega)
    refine ⟨by rw [preadPos, hcs, hprod], fun ret h0 h1 => ?_⟩
    rw [chunkPos, hcs, hprod]
    exact toI32_eq_self (by omega) (by omega)

theorem Placed.range (h : Placed bound c) {i : Int} (hi : i ∈ touched bound c) :
    c * 524288 ≤ i ∧ i < (c + 1) * 524288 := by
  have hcs : (chunkSize : Int) = 524288 := rfl
  rcases hi with ⟨j, h0, h1, rfl⟩ | ⟨ret, j, hr0, hr1, h0, h1, rfl⟩
  · rw [h.read, hcs]
    omega
  · rw [h.written ret hr0 hr1, hcs]
    omega

end

/-- **Chunk ids map to disjoint file ranges** exactly as long as the positions fit in an `int`: for
every two ids that `parse_hasneed_list` can read, and `ret` up to any `bound`. -/
theorem chunk_places_iff {bound c c' : Int} (hc : 0 ≤ c) (hc' : 0 ≤ c') (hlt : c < 2 ^ 31)
    (hlt' : c' < 2 ^ 31) (hne : c ≠ c') (hbound : 0 ≤ bound) (hle : bound ≤ chunkSize) :
    Apart bound c c' ↔
      c * chunkSize + bound < 2 ^ 31 ∧ c' * chunkSize + bound < 2 ^ 31 := by
  rw [← placed_iff hc hbound hle, ← placed_iff hc' hbound hle]
  constructor
  · intro h
    exact ⟨h.left, h.right⟩
  · rintro ⟨h, h'⟩
    refine ⟨h, h', fun i hi => ?_, fun i hi hi' => ?_⟩
    · rcases hi with hi | hi
      · have := (h.range hi).1
        omega
      · have := (h'.range hi).1
        omega
    · have hin := h.range hi
      have hin' := h'.range hi'
      omega

/-- The first two chunks. -/
theorem first_chunks_apart : Apart chunkSize 0 1 :=
  (chunk_places_iff (by decide) (by decide) (by decide) (by decide) (by decide) (by decide)
    (le_refl _)).mpr (by decide)

/-- Chunk 4096 is looked for in front of the file, and chunk 8192 is read and written in the place
of chunk 0. -/
theorem chunk_8192_is_chunk_0 :
    preadPos 4096 = -2147483648 ∧ chunkPos 4096 0 = -2147483648 ∧
      preadPos 8192 = preadPos 0 ∧ (∀ ret, chunkPos 8192 ret = chunkPos 0 ret) ∧
      ¬ Apart chunkSize 0 8192 ∧ ¬ Apart chunkSize 0 4096 := by
  have hiff : ∀ c : Int, 4096 ≤ c → c < 2 ^ 31 → ¬ Apart chunkSize 0 c := by
    intro c h0 h1 h
    have hcs : (chunkSize : Int) = 524288 := rfl
    have hread := h.right.read
    have := toI32_lt (c * chunkSize)
    rw [preadPos] at hread
    rw [hread, hcs] at this
    omega
  exact ⟨by decide, by decide, by decide, fun ret => rfl, hiff 8192 (by decide) (by decide),
    hiff 4096 (by decide) (by decide)⟩

/-! ## The write loop of `reap` -/

/-- The byte last written at a position. -/
def OutFile.byteAt (out : OutFile) (i : Nat) : Option UInt8 :=
  out.blocks.findSome? fun block =>
    if block.1 ≤ i then block.2[i - block.1]? else none

/-- The variables of the loop. -/
structure WriteLoop where
  outfd : OutFile
  ret : Int
  /-- The last result of `write`, as a `size_t`. -/
  written : Nat

def WriteLoop.start (outfd : OutFile) : WriteLoop := ⟨outfd, 0, 0⟩

/-- One pass of the loop, in which `write` returns `result`: -1, or how many of the bytes it was
given it took. `none` when the loop is over, and where `reap_buf + ret` is outside the buffer. -/
def WriteLoop.next (reapBuf : List UInt8) (offset : Int) (s : WriteLoop) (result : Int) :
    Option WriteLoop :=
  if s.ret ≠ chunkSize ∧ 0 ≤ s.ret ∧ s.ret ≤ chunkSize ∧
      (result = -1 ∨ 1 ≤ result ∧ result ≤ chunkSize - s.ret) then
    let outfd := s.outfd.lseek (chunkPos offset s.ret)
    let written : Nat := (result % 2 ^ 64).toNat
    some {
      outfd := if result = -1 then outfd
        else outfd.write ((reapBuf.drop s.ret.toNat).take result.toNat)
      ret := if 0 < written then toI32 (s.ret + written) else s.ret
      written := written }
  else none

/-- What `reap` returns after the loop. -/
def WriteLoop.returned (s : WriteLoop) : Int := toI32 s.written

/-- What `write` may return, one call after the other, until the chunk is written: from `ret` on. -/
def WriteResults : Int → List Int → Prop
  | _, [] => True
  | ret, r :: results =>
    ret ≠ chunkSize ∧ (r = -1 ∨ 1 ≤ r ∧ r ≤ chunkSize - ret) ∧ WriteResults (ret + r) results

/-- The loop stays in the buffer and in the range of the chunk; at its end the range holds the
buffer, and `reap` returns `CHUNK_SIZE`. -/
structure Reaped (reapBuf : List UInt8) (offset : Nat) (outfd : OutFile) (s : WriteLoop) :
    Prop where
  bounds : 0 ≤ s.ret ∧ s.ret ≤ chunkSize
  targets : ∀ pos bytes, (pos, bytes) ∈ s.outfd.blocks → (pos, bytes) ∈ outfd.blocks ∨
    offset * chunkSize ≤ pos ∧ pos + bytes.length ≤ (offset + 1) * chunkSize
  rest : ∀ i, i < offset * chunkSize ∨ (offset + 1) * chunkSize ≤ i →
    s.outfd.byteAt i = outfd.byteAt i
  filled : s.ret = chunkSize →
    ∀ j, j < chunkSize → s.outfd.byteAt (offset * chunkSize + j) = reapBuf[j]?
  returned : s.ret = chunkSize → s.returned = chunkSize

theorem OutFile.byteAt_write (out : OutFile) (bytes : List UInt8) (i : Nat) :
    (out.write bytes).byteAt i =
      if out.pos ≤ i ∧ i < out.pos + bytes.length then bytes[i - out.pos]? else out.byteAt i := by
  unfold byteAt write
  rw [List.findSome?_cons]
  by_cases hle : out.pos ≤ i
  · by_cases hlt : i - out.pos < bytes.length
    · simp only [if_pos hle, List.getElem?_eq_getElem hlt]
      rw [if_pos ⟨hle, by omega⟩]
    · simp only [if_pos hle, List.getElem?_eq_none (Nat.le_of_not_lt hlt)]
      rw [if_neg (by omega)]
  · simp only [if_neg hle]
    rw [if_neg (by omega)]

theorem OutFile.byteAt_lseek (out : OutFile) (offset : Int) (i : Nat) :
    (out.lseek offset).byteAt i = out.byteAt i := by
  unfold byteAt lseek
  split <;> rfl

namespace WriteLoop

variable {reapBuf : List UInt8} {offset : Nat} {outfd : OutFile} {s s' : WriteLoop} {r : Int}

/-- What holds between two passes: the bytes in front of `ret` are in the file. -/
structure Inv (reapBuf : List UInt8) (offset : Nat) (outfd : OutFile) (s : WriteLoop) : Prop where
  bounds : 0 ≤ s.ret ∧ s.ret ≤ chunkSize
  targets : ∀ pos bytes, (pos, bytes) ∈ s.outfd.blocks → (pos, bytes) ∈ outfd.blocks ∨
    offset * chunkSize ≤ pos ∧ pos + bytes.length ≤ (offset + 1) * chunkSize
  rest : ∀ i, i < offset * chunkSize ∨ (offset + 1) * chunkSize ≤ i →
    s.outfd.byteAt i = outfd.byteAt i
  front : ∀ j : Nat, (j : Int) < s.ret →
    s.outfd.byteAt (offset * chunkSize + j) = reapBuf[j]?

theorem inv_start (reapBuf : List UInt8) (offset : Nat) (outfd : OutFile) :
    (start outfd).Inv reapBuf offset outfd := by
  refine ⟨⟨le_refl 0, Int.natCast_nonneg _⟩, fun pos bytes h => .inl h, fun i _ => rfl,
    fun j hj => ?_⟩
  simp only [start] at hj
  omega

theorem Inv.reaped_iff (h : s.Inv reapBuf offset outfd) :
    Reaped reapBuf offset outfd s ↔ (s.ret = chunkSize → s.returned = chunkSize) := by
  constructor
  · intro h'
    exact h'.returned
  · intro hret
    exact ⟨h.bounds, h.targets, h.rest, fun hdone j hj => h.front j (by omega), hret⟩

theorem next_error (h : s.Inv reapBuf offset outfd) (hopen : s.ret ≠ chunkSize) :
    ∃ s', s.next reapBuf offset (-1) = some s' ∧ s'.ret = s.ret + -1 ∧
      (1 ≤ s.ret → s'.Inv reapBuf offset outfd) := by
  have hcs : chunkSize = 524288 := rfl
  obtain ⟨h0, h1⟩ := h.bounds
  have hret : toI32 (s.ret + ((-1 % 2 ^ 64 : Int).toNat : Int)) = s.ret + -1 := by
    rw [toI32_eq, show ((-1 % 2 ^ 64 : Int).toNat : Int) = 18446744073709551615 by decide]
    split <;> omega
  refine ⟨⟨s.outfd.lseek (chunkPos offset s.ret), s.ret + -1, (-1 % 2 ^ 64 : Int).toNat⟩, ?_, rfl,
    fun hpos => ⟨?_, fun pos bytes hmem => ?_, fun i hi => ?_, fun j hj => ?_⟩⟩
  · rw [next, if_pos ⟨hopen, h0, h1, .inl rfl⟩]
    simp only [if_true, if_pos (show 0 < (-1 % 2 ^ 64 : Int).toNat by decide), hret]
  · simp only
    omega
  · rw [OutFile.lseek_blocks] at hmem
    exact h.targets pos bytes hmem
  · rw [OutFile.byteAt_lseek]
    exact h.rest i hi
  · simp only at hj
    rw [OutFile.byteAt_lseek]
    exact h.front j (by omega)

theorem lseek_pos (h : s.Inv reapBuf offset outfd) (hopen : s.ret ≠ chunkSize)
    (hfits : offset * chunkSize < 2 ^ 31) :
    (s.outfd.lseek (chunkPos offset s.ret)).pos = offset * chunkSize + s.ret.toNat := by
  have hcs : chunkSize = 524288 := rfl
  obtain ⟨h0, h1⟩ := h.bounds
  have hplaced : Placed 524287 offset :=
    (placed_iff (Int.natCast_nonneg _) (by decide) (by decide)).mpr (by
      rw [hcs] at hfits ⊢
      omega)
  have hpos := hplaced.written s.ret h0 (by omega)
  rw [OutFile.lseek, if_pos (by omega)]
  simp only
  omega

theorem Inv.write (hbuf : reapBuf.length = chunkSize) (hfits : offset * chunkSize < 2 ^ 31)
    (h : s.Inv reapBuf offset outfd) (h1 : 1 ≤ r) (hr : r ≤ chunkSize - s.ret) (written : Nat) :
    Inv reapBuf offset outfd
      ⟨(s.outfd.lseek (chunkPos offset s.ret)).write ((reapBuf.drop s.ret.toNat).take r.toNat),
        s.ret + r, written⟩ := by
  have hcs : chunkSize = 524288 := rfl
  obtain ⟨h0, hle⟩ := h.bounds
  have hpos := lseek_pos h (by omega) hfits
  have hlen : ((reapBuf.drop s.ret.toNat).take r.toNat).length = r.toNat := by
    rw [List.length_take, List.length_drop]
    omega
  -- the byte at a place written is the one of the buffer
  have hbyte : ∀ j : Nat, s.ret ≤ j → (j : Int) < s.ret + r →
      ((reapBuf.drop s.ret.toNat).take r.toNat)[j - s.ret.toNat]? = reapBuf[j]? := by
    intro j hj1 hj2
    rw [List.getElem?_take_of_lt (by omega), List.getElem?_drop,
      show s.ret.toNat + (j - s.ret.toNat) = j by omega]
  refine ⟨⟨by simp only; omega, by simp only; omega⟩, fun pos bytes hmem => ?_, fun i hi => ?_,
    fun j hj => ?_⟩
  · rcases List.mem_cons.mp hmem with heq | hold
    · rw [Prod.mk.injEq] at heq
      rw [heq.1, heq.2, hpos, hlen]
      exact .inr ⟨by omega, by rw [Nat.succ_mul]; omega⟩
    · rw [OutFile.lseek_blocks] at hold
      exact h.targets pos bytes hold
  · rw [OutFile.byteAt_write, hpos, hlen, if_neg (by rw [Nat.succ_mul] at hi; omega),
      OutFile.byteAt_lseek]
    exact h.rest i hi
  · simp only at hj
    rw [OutFile.byteAt_write, hpos, hlen]
    by_cases hnew : s.ret ≤ j
    · rw [if_pos (by omega), ← hbyte j hnew hj,
        show offset * chunkSize + j - (offset * chunkSize + s.ret.toNat) = j - s.ret.toNat by
          omega]
    · rw [if_neg (by omega), OutFile.byteAt_lseek]
      exact h.front j (by omega)

theorem next_count (hbuf : reapBuf.length = chunkSize) (hfits : offset * chunkSize < 2 ^ 31)
    (h : s.Inv reapBuf offset outfd) (h1 : 1 ≤ r) (hr : r ≤ chunkSize - s.ret) :
    ∃ s', s.next reapBuf offset r = some s' ∧ s'.ret = s.ret + r ∧ s'.returned = r ∧
      s'.Inv reapBuf offset outfd := by
  have hcs : chunkSize = 524288 := rfl
  obtain ⟨h0, hle⟩ := h.bounds
  have hmod : ((r % 2 ^ 64).toNat : Int) = r := by omega
  have hret : toI32 (s.ret + ((r % 2 ^ 64).toNat : Int)) = s.ret + r := by
    rw [hmod]
    exact toI32_eq_self (by omega) (by omega)
  refine ⟨_, ?_, rfl, ?_, h.write hbuf hfits h1 hr (r % 2 ^ 64).toNat⟩
  · rw [next, if_pos ⟨by omega, h0, hle, .inr ⟨h1, hr⟩⟩]
    simp only [if_neg (show r ≠ -1 by omega), if_pos (show 0 < (r % 2 ^ 64).toNat by omega), hret]
  · rw [returned, hmod]
    exact toI32_eq_self (by omega) (by omega)

theorem sum_prefix_cons (ret r : Int) (results : List Int) :
    (∀ done, done <+: r :: results → 0 ≤ ret + done.sum) ↔
      0 ≤ ret ∧ ∀ done, done <+: results → 0 ≤ ret + r + done.sum := by
  rw [forall_prefix_cons]
  simp only [List.sum_nil, add_zero, List.sum_cons, add_assoc]

theorem sum_dropLast_cons (ret r : Int) (results : List Int) :
    (r :: results ≠ [] → ret + (r :: results).sum = chunkSize →
        ret + (r :: results).dropLast.sum = 0) ↔
      (results = [] → ret + r = chunkSize → ret = 0) ∧
        (results ≠ [] → ret + r + results.sum = chunkSize →
          ret + r + results.dropLast.sum = 0) := by
  cases results with
  | nil => simp
  | cons r' results => simp [add_assoc]

/-- **The loop from any state on**: it is as it should be exactly if `ret` never gets negative, and
the last `write` starts at the beginning of the chunk. -/
theorem always_reaped_iff (hbuf : reapBuf.length = chunkSize)
    (hfits : offset * chunkSize < 2 ^ 31) {results : List Int} :
    ∀ {s : WriteLoop}, s.Inv reapBuf offset outfd → WriteResults s.ret results →
      (Always (next reapBuf offset) (Reaped reapBuf offset outfd) s results ↔
        (s.ret = chunkSize → s.returned = chunkSize) ∧
        (∀ done, done <+: results → 0 ≤ s.ret + done.sum) ∧
        (results ≠ [] → s.ret + results.sum = chunkSize →
          s.ret + results.dropLast.sum = 0)) := by
  induction results with
  | nil =>
    intro s h _
    show Reaped reapBuf offset outfd s ↔ _
    rw [h.reaped_iff]
    refine ⟨fun hdone => ⟨hdone, fun done hpre => ?_, fun hne => absurd rfl hne⟩,
      fun hall => hall.1⟩
    rw [List.prefix_nil.mp hpre, List.sum_nil, add_zero]
    exact h.bounds.1
  | cons r results ih =>
    intro s h hres
    obtain ⟨hopen, hr, hrest⟩ := hres
    have hnow : Reaped reapBuf offset outfd s := h.reaped_iff.mpr fun hdone => absurd hdone hopen
    obtain ⟨h0, hle'⟩ := h.bounds
    rcases hr with rfl | ⟨h1, hle⟩
    · obtain ⟨s', hs', hret, hinv⟩ := next_error h hopen
      rw [always_step hs', and_iff_right hnow]
      by_cases hpos : 1 ≤ s.ret
      · rw [ih (hinv hpos) (by rwa [hret]), hret, sum_prefix_cons, sum_dropLast_cons]
        refine ⟨fun hall => ⟨fun hdone => absurd hdone hopen, ⟨h0, hall.2.1⟩, by omega, hall.2.2⟩,
          fun hall => ⟨by omega, hall.2.1.2, hall.2.2.2⟩⟩
      · constructor
        · intro hall
          have := hall.head.bounds.1
          omega
        · intro hall
          have := hall.2.1 [-1] ⟨results, rfl⟩
          simp only [List.sum_singleton] at this
          omega
    · obtain ⟨s', hs', hret, hreturned, hinv⟩ := next_count hbuf hfits h h1 hle
      rw [always_step hs', and_iff_right hnow, ih hinv (by rwa [hret]), hret, hreturned,
        sum_prefix_cons, sum_dropLast_cons]
      have hend : results ≠ [] → s.ret + r ≠ chunkSize := by
        cases results with
        | nil => exact fun hne => absurd rfl hne
        | cons r' results => exact fun _ => hrest.1
      constructor
      · intro hall
        refine ⟨fun hdone => absurd hdone hopen, ⟨h0, hall.2.1⟩, fun _ hsum => ?_, hall.2.2⟩
        have := hall.1 hsum
        omega
      · intro hall
        refine ⟨fun hsum => ?_, hall.2.1.2, hall.2.2.2⟩
        by_cases hne : results = []
        · have := hall.2.2.1 hne hsum
          omega
        · exact absurd hsum (hend hne)

end WriteLoop

theorem reap_eq_writeLoop {shahash : List UInt8 → Hash} {recv : RecvState} {m : List UInt8}
    (hm : recv.merge = some m) (hlen : m.length = chunkSize) (hsha : shahash m = recv.hash)
    (offset : Int) (outfd : OutFile) : reap shahash recv offset outfd =
      (exec (WriteLoop.next m offset) (.start outfd) [524288]).map fun s =>
        (s.outfd, s.returned) := by
  have hcs : (chunkSize : Int) = 524288 := rfl
  have hwhole : (m.drop (0 : Int).toNat).take (524288 : Int).toNat = m :=
    List.take_of_length_le (le_of_eq hlen)
  have hnext : (WriteLoop.start outfd).next m offset 524288 =
      some ⟨(outfd.lseek (chunkPos offset 0)).write m, 524288, 524288⟩ := by
    rw [WriteLoop.next, if_pos (by simp only [WriteLoop.start]; decide)]
    simp only [WriteLoop.start, if_neg (show (524288 : Int) ≠ -1 by decide), hwhole]
    rfl
  have hreturned : toI32 ((524288 : Nat) : Int) = chunkSize := by decide
  rw [reap, hm, Option.map_some, if_pos hlen, checkOnechunkHash, if_pos hsha, if_pos rfl,
    exec_step hnext, exec_nil, Option.map_some]
  simp only [WriteLoop.returned, hreturned]

/-- **The write loop is correct** for a buffer of `CHUNK_SIZE` bytes, a place that fits in an `int`
and all results of `write`, exactly if no `write` fails when the results before it sum up to 0, and
those before the last one sum up to 0 if the chunk is written. -/
theorem write_loop_iff {reapBuf : List UInt8} {offset : Nat} (outfd : OutFile) {results : List Int}
    (hbuf : reapBuf.length = chunkSize) (hfits : offset * chunkSize < 2 ^ 31)
    (hres : WriteResults 0 results) :
    Always (WriteLoop.next reapBuf offset) (Reaped reapBuf offset outfd) (.start outfd) results ↔
      (∀ done, done <+: results → 0 ≤ done.sum) ∧
      (results.sum = chunkSize → results.dropLast.sum = 0) := by
  have hcs : chunkSize = 524288 := rfl
  have hstart : (WriteLoop.start outfd).ret = 0 := rfl
  rw [WriteLoop.always_reaped_iff hbuf hfits (WriteLoop.inv_start reapBuf offset outfd) hres]
  simp only [hstart, zero_add]
  refine ⟨fun hall => ⟨hall.2.1, fun hsum => hall.2.2 ?_ hsum⟩,
    fun hall => ⟨fun h0 => by omega, hall.1, fun _ => hall.2⟩⟩
  rintro rfl
  rw [List.sum_nil] at hsum
  omega

/-- One byte is written, the next `write` fails, and the last one takes the whole chunk. -/
theorem reaped_after_failed_write : Always (WriteLoop.next (List.replicate chunkSize 7) 3)
    (Reaped (List.replicate chunkSize 7) 3 .opened) (.start .opened) [1, -1, 524288] := by
  have hres : WriteResults 0 [1, -1, 524288] := by
    refine ⟨by decide, .inr ⟨by decide, by decide⟩, by decide, .inl rfl, by decide,
      .inr ⟨by decide, by decide⟩, trivial⟩
  refine (write_loop_iff .opened List.length_replicate (by decide) hres).mpr
    ⟨?_, fun _ => by decide⟩
  simp only [forall_prefix_cons]
  refine ⟨by decide, by decide, by decide, fun done hpre => ?_⟩
  rw [List.prefix_nil.mp hpre]
  decide

/-- After a first `write` that fails, `ret` is -1; and a chunk written in two steps makes `reap`
return the length of the second. -/
theorem failed_and_short_writes :
    (∃ s, (WriteLoop.start .opened).next (List.replicate chunkSize 7) (3 : Nat) (-1) = some s ∧
      s.ret = -1 ∧ ¬ Reaped (List.replicate chunkSize 7) 3 .opened s) ∧
    ∃ s, exec (WriteLoop.next (List.replicate chunkSize 7) (3 : Nat)) (.start .opened)
        [1, 524287] = some s ∧
      s.ret = chunkSize ∧ s.returned = 524287 ∧
      ¬ Reaped (List.replicate chunkSize 7) 3 .opened s := by
  have hcs : chunkSize = 524288 := rfl
  have hinv := WriteLoop.inv_start (List.replicate chunkSize 7) 3 .opened
  have hstart : (WriteLoop.start .opened).ret = 0 := rfl
  constructor
  · obtain ⟨s, hs, hret, -⟩ := WriteLoop.next_error hinv (by rw [hstart]; omega)
    refine ⟨s, hs, hret, fun hreaped => ?_⟩
    have := hreaped.bounds.1
    omega
  · obtain ⟨s, hs, hret, -, hinv'⟩ := WriteLoop.next_count (r := 1) List.length_replicate
      (by decide) hinv (le_refl 1) (by rw [hstart]; omega)
    obtain ⟨s', hs', hret', hreturned, -⟩ := WriteLoop.next_count (r := 524287)
      List.length_replicate (by decide) hinv' (by decide) (by rw [hret, hstart]; omega)
    refine ⟨s', (exec_step hs _).trans (exec_step hs' []), by omega, hreturned, fun hreaped => ?_⟩
    have := hreaped.returned (by omega)
    omega

end P2P
