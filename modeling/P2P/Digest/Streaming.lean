import P2P.Digest.Standard
import P2P.Lib.Runs

/-!
# Hashing in pieces

A context holds a message: `hash` is the chain over its whole blocks, the buffer starts with what is
left over, and `totalLength` counts its bits (`SHA1Context.Holds`). `SHA1Update` appends to the
message on either path, and `SHA1Final` pads it.

`sha1_pieces`: however the data is cut, the hash is that of the standard.
-/

namespace P2P

open Lib

namespace SHA1Context

/-- The context holds a message. -/
structure Holds (sc : SHA1Context) (msg : List UInt8) : Prop where
  total : sc.totalLength = UInt64.ofNat (8 * msg.length)
  chain : sc.hash = (blocks 64 msg).foldl Standard.compress Standard.iv
  pending : sc.buffer.take sc.bufferLength = leftover 64 msg

variable {sc : SHA1Context} {msg data : List UInt8} (o : ByteOrder)

theorem Holds.init (buffer : Vector UInt8 64) : (sha1Init buffer).Holds [] where
  total := rfl
  chain := by
    rw [blocks_of_length_lt (by decide)]
    rfl
  pending := by
    rw [leftover_of_length_lt (by decide)]
    rfl

theorem Holds.bufferLength_eq (h : sc.Holds msg) : sc.bufferLength = msg.length % 64 := by
  have hlen := congrArg List.length h.pending
  rw [List.length_take, sc.buffer_length, Nat.min_eq_left sc.bufferLength_le,
    length_leftover (by decide)] at hlen
  exact hlen

theorem Holds.room (h : sc.Holds msg) : sc.bufferLength < 64 :=
  h.bufferLength_eq ▸ Nat.mod_lt _ (by decide)

theorem total_add (m n : Nat) :
    UInt64.ofNat (8 * m) + UInt64.ofNat (n * 8) = UInt64.ofNat (8 * (m + n)) := by
  rw [← UInt64.ofNat_add, Nat.mul_comm n 8, ← Nat.mul_add]

/-- **`memcpy` and the flush** of a full buffer append to the message. -/
theorem Holds.fill (h : sc.Holds msg) (data : List UInt8)
    (hlen : sc.bufferLength + data.length ≤ 64) :
    ∃ sc', sc.fill data = some sc' ∧ sc'.bufferLength = sc.bufferLength + data.length ∧
      (sc'.flush o).Holds (msg ++ data) := by
  refine ⟨_, dif_pos hlen, rfl, ?_⟩
  have hbuf : (store sc.buffer sc.bufferLength data).take (sc.bufferLength + data.length) =
      leftover 64 msg ++ data := by
    have htake : (sc.buffer.take sc.bufferLength).length = sc.bufferLength := by
      rw [List.length_take, sc.buffer_length, Nat.min_eq_left sc.bufferLength_le]
    rw [store, h.pending]
    rw [h.pending] at htake
    exact List.take_left' (by rw [List.length_append, htake])
  have htotal : sc.totalLength + UInt64.ofNat (data.length * 8) =
      UInt64.ofNat (8 * (msg ++ data).length) := by
    rw [h.total, total_add, List.length_append]
  have hleft : (leftover 64 msg ++ data).length = sc.bufferLength + data.length := by
    rw [List.length_append, length_leftover (by decide), h.bufferLength_eq]
  unfold flush
  split
  · -- the buffer is a block
    rename_i hfull
    have hfull : sc.bufferLength + data.length = 64 := hfull
    have hblock : (leftover 64 msg ++ data).length = 64 := hleft.trans hfull
    have hstored : store sc.buffer sc.bufferLength data = leftover 64 msg ++ data := by
      have hall : (store sc.buffer sc.bufferLength data).length = 64 := by
        rw [length_store (sc.buffer_length ▸ hlen), sc.buffer_length]
      rw [← hbuf, hfull, List.take_of_length_le hall.le]
    refine ⟨htotal, ?_, ?_⟩
    · rw [blocks_append (by decide), blocks_of_length (by decide) hblock, List.foldl_append,
        ← h.chain, ← hstored]
      exact sha1Guts_eq o _ _
    · rw [leftover_append (by decide), leftover_of_length (by decide) hblock]
      rfl
  · rename_i hfree
    have hlt : (leftover 64 msg ++ data).length < 64 :=
      hleft ▸ Nat.lt_of_le_of_ne hlen hfree
    refine ⟨htotal, ?_, ?_⟩
    · rw [blocks_append (by decide), blocks_of_length_lt hlt, List.append_nil]
      exact h.chain
    · rw [leftover_append (by decide), leftover_of_length_lt hlt]
      exact hbuf

/-! ## `SHA1Update` -/

theorem bytesToCopy_eq (sc : SHA1Context) (len : Nat) :
    sc.bytesToCopy len = min len (64 - sc.bufferLength) := by
  simp only [bytesToCopy]
  split <;> omega

/-- **The loop of `SHA1Update`** appends, and leaves the buffer only at its end. -/
theorem Holds.updateLoop {k : Nat} (hk : data.length ≤ k) (h : sc.Holds msg) :
    ∃ sc', updateLoop o k sc data = some sc' ∧ sc'.Holds (msg ++ data) := by
  induction k generalizing sc msg data with
  | zero =>
    have hnil := List.eq_nil_of_length_eq_zero (Nat.le_zero.mp hk)
    subst hnil
    exact ⟨sc, rfl, by rwa [List.append_nil]⟩
  | succ k ih =>
    cases data with
    | nil => exact ⟨sc, rfl, by rwa [List.append_nil]⟩
    | cons b data =>
      have hroom := h.room
      have hn := sc.bytesToCopy_eq (b :: data).length
      rw [SHA1Context.updateLoop]
      generalize sc.bytesToCopy (b :: data).length = n at hn ⊢
      have hpos : 0 < (b :: data).length := Nat.succ_pos _
      have htake : ((b :: data).take n).length = n := by
        rw [List.length_take]
        omega
      obtain ⟨sc', hfill, -, hsc'⟩ := h.fill o ((b :: data).take n) (by omega)
      have hdrop : ((b :: data).drop n).length ≤ k := by
        rw [List.length_drop]
        omega
      obtain ⟨sc'', hloop, hsc''⟩ := ih hdrop hsc'
      rw [List.append_assoc, List.take_append_drop] at hsc''
      exact ⟨sc'', by rw [hfill, Option.bind_some, hloop], hsc''⟩

/-- What a function that takes data for a context has to do. -/
def Appends (update : SHA1Context → List UInt8 → Option SHA1Context) : Prop :=
  ∀ sc msg data, Holds sc msg → ∃ sc', update sc data = some sc' ∧ sc'.Holds (msg ++ data)

theorem sha1Update_appends : Appends (sha1Update o) :=
  fun _ _ _ h => h.updateLoop o (Nat.le_succ _)

/-- **The loop over whole blocks**: the buffer is empty before it and after it. -/
theorem Holds.gutsLoop {k : Nat} (hk : data.length ≤ k) (h : sc.Holds msg)
    (hempty : sc.bufferLength = 0) :
    ∃ sc' d rest, gutsLoop o k sc data = (sc', rest) ∧ data = d ++ rest ∧ rest.length < 64 ∧
      sc'.bufferLength = 0 ∧ sc'.Holds (msg ++ d) := by
  induction k generalizing sc msg data with
  | zero =>
    have hnil := List.eq_nil_of_length_eq_zero (Nat.le_zero.mp hk)
    subst hnil
    exact ⟨sc, [], [], rfl, rfl, by decide, hempty, by rwa [List.append_nil]⟩
  | succ k ih =>
    rw [SHA1Context.gutsLoop]
    split
    · rename_i hlen
      have hblock : (data.take 64).length = 64 := by
        rw [List.length_take]
        omega
      have hleft : leftover 64 msg = [] := by
        rw [← h.pending, hempty, List.take_zero]
      have hnext : Holds { sc with
          totalLength := sc.totalLength + 512
          hash := sha1Guts o sc.hash (data.take 64) } (msg ++ data.take 64) := by
        refine ⟨?_, ?_, ?_⟩
        · have h512 : (512 : UInt64) = UInt64.ofNat (64 * 8) := rfl
          rw [List.length_append, hblock, ← total_add, ← h.total, ← h512]
        · rw [blocks_append (by decide), hleft, List.nil_append,
            blocks_of_length (by decide) hblock, List.foldl_append, ← h.chain]
          exact sha1Guts_eq o _ _
        · rw [leftover_append (by decide), hleft, List.nil_append,
            leftover_of_length (by decide) hblock, ← hleft]
          exact h.pending
      have hdrop : (data.drop 64).length ≤ k := by
        rw [List.length_drop]
        omega
      obtain ⟨sc', d, rest, hloop, hd, hrest, hempty', hsc'⟩ := ih hdrop hnext hempty
      refine ⟨sc', data.take 64 ++ d, rest, hloop, ?_, hrest, hempty', ?_⟩
      · rw [List.append_assoc, ← hd, List.take_append_drop]
      · rwa [← List.append_assoc]
    · rename_i hlen
      exact ⟨sc, [], data, rfl, rfl, by omega, hempty, by rwa [List.append_nil]⟩

theorem Holds.fill_rest (h : sc.Holds msg) (hempty : sc.bufferLength = 0)
    (hlen : data.length < 64) : ∃ sc', sc.fill data = some sc' ∧ sc'.Holds (msg ++ data) := by
  obtain ⟨sc', hfill, hlength, hsc'⟩ := h.fill .little data (by omega)
  refine ⟨sc', hfill, ?_⟩
  rwa [flush, if_neg (by omega)] at hsc'

/-- **The path with `SHA1_FAST_COPY`** appends too. -/
theorem sha1UpdateFast_appends : Appends (sha1UpdateFast o) := by
  intro sc msg data h
  -- the context after the buffer is filled up
  have hfirst : ∃ sc' n, (if sc.bufferLength = 0 then some sc
        else (sc.fill (data.take n)).map (flush o)) = some sc' ∧
      n = (if sc.bufferLength = 0 then 0 else sc.bytesToCopy data.length) ∧
      sc'.Holds (msg ++ data.take n) ∧ (sc'.bufferLength = 0 ∨ data.drop n = []) := by
    by_cases hempty : sc.bufferLength = 0
    · refine ⟨sc, 0, if_pos hempty, (if_pos hempty).symm, ?_, .inl hempty⟩
      rwa [List.take_zero, List.append_nil]
    · have hn := sc.bytesToCopy_eq data.length
      have hle := sc.bufferLength_le
      have htake : (data.take (sc.bytesToCopy data.length)).length =
          sc.bytesToCopy data.length := by
        rw [List.length_take]
        omega
      obtain ⟨sc', hfill, hlength, hsc'⟩ :=
        h.fill o (data.take (sc.bytesToCopy data.length)) (by omega)
      refine ⟨sc'.flush o, _, ?_, (if_neg hempty).symm, hsc', ?_⟩
      · rw [if_neg hempty, hfill, Option.map_some]
      · by_cases hfull : sc'.bufferLength = 64
        · left
          rw [flush, if_pos hfull]
        · right
          apply List.drop_of_length_le
          omega
  obtain ⟨sc', n, hsome, hn, hsc', hrest⟩ := hfirst
  rw [sha1UpdateFast, ← hn, hsome, Option.bind_some]
  rcases hrest with hempty | hnil
  · have hk : (data.drop n).length ≤ data.length := by
      rw [List.length_drop]
      exact Nat.sub_le ..
    obtain ⟨sc₁, d, rest, hloop, hd, hlt, hempty₁, hsc₁⟩ := hsc'.gutsLoop o hk hempty
    rw [List.append_assoc] at hsc₁
    rw [hloop]
    by_cases hr : rest = []
    · rw [hr, List.append_nil] at hd
      rw [← hd, List.take_append_drop] at hsc₁
      exact ⟨sc₁, if_pos hr, hsc₁⟩
    · obtain ⟨sc₂, hfill, hsc₂⟩ := hsc₁.fill_rest hempty₁ hlt
      rw [List.append_assoc, List.append_assoc, ← hd, List.take_append_drop] at hsc₂
      exact ⟨sc₂, (if_neg hr).trans hfill, hsc₂⟩
  · have hall := List.take_append_drop n data
    rw [hnil, List.append_nil] at hall
    rw [hall] at hsc'
    have hloop : SHA1Context.gutsLoop o data.length sc' [] = (sc', []) := by
      cases data <;> rfl
    rw [hnil, hloop]
    exact ⟨sc', if_pos rfl, hsc'⟩

theorem Appends.exec {update : SHA1Context → List UInt8 → Option SHA1Context}
    (hu : Appends update) (h : sc.Holds msg) (pieces : List (List UInt8)) :
    ∃ sc', exec update sc pieces = some sc' ∧ sc'.Holds (msg ++ pieces.flatten) := by
  induction pieces generalizing sc msg with
  | nil => exact ⟨sc, rfl, by rwa [List.flatten_nil, List.append_nil]⟩
  | cons piece pieces ih =>
    obtain ⟨sc', hpiece, hsc'⟩ := hu sc msg piece h
    obtain ⟨sc'', hrun, hsc''⟩ := ih hsc'
    rw [List.append_assoc] at hsc''
    exact ⟨sc'', by rw [exec_step hpiece, hrun], by rwa [List.flatten_cons]⟩

/-! ## `SHA1Final` -/

theorem padding_take (n : Nat) (h : n < 64) :
    padding.take (if 120 - n > 64 then 120 - n - 64 else 120 - n) =
      0x80 :: List.replicate ((119 - n) % 64) 0 := by
  have hnum : (if 120 - n > 64 then 120 - n - 64 else 120 - n) = (119 - n) % 64 + 1 := by
    split <;> omega
  rw [hnum, padding, List.take_succ_cons, List.take_replicate, Nat.min_eq_left (by omega)]

theorem Holds.finish {update : SHA1Context → List UInt8 → Option SHA1Context}
    (hu : Appends update) (h : sc.Holds msg) :
    ∃ sc', finish o update sc = some sc' ∧ sc'.hash = Standard.words msg := by
  obtain ⟨sc₁, hpad, hsc₁⟩ := hu sc msg (padding.take _) h
  obtain ⟨sc₂, hlen, hsc₂⟩ := hu sc₁ _ (o.bytes64 (byteswap64 o sc.totalLength)) hsc₁
  refine ⟨sc₂, ?_, ?_⟩
  · rw [P2P.finish, hpad, Option.bind_some, hlen]
  · rw [hsc₂.chain, Standard.words, Standard.messageBlocks, Standard.pad, bytes64_byteswap64,
      padding_take _ h.room, h.bufferLength_eq, h.total]

/-- **`SHA1Final`** on either path returns the hash of the message. -/
theorem Holds.final (h : sc.Holds msg) : sha1Final o sc = some (Standard.sha1 msg) := by
  obtain ⟨sc', hfinish, hwords⟩ := h.finish o (sha1Update_appends o)
  have hbytes : hashBytes = fun x => ⟨(be32 x).toArray, rfl⟩ := funext hashBytes_eq
  rw [sha1Final, hfinish, Option.map_some, hwords, hbytes, Standard.sha1]

theorem Holds.finalFast (h : sc.Holds msg) : sha1FinalFast o sc = some (Standard.sha1 msg) := by
  obtain ⟨sc', hfinish, hwords⟩ := h.finish o (sha1UpdateFast_appends o)
  have hbytes : hashBytesFast o = fun x => ⟨(be32 x).toArray, rfl⟩ :=
    funext (hashBytesFast_eq o)
  rw [sha1FinalFast, hfinish, Option.map_some, hwords, hbytes, Standard.sha1]

end SHA1Context

variable (o : ByteOrder)

theorem shahash_eq (sha : Vector UInt8 64) (str : List UInt8) :
    shahash o sha str = some (Standard.sha1 str) := by
  obtain ⟨sc, hupdate, hsc⟩ :=
    SHA1Context.sha1Update_appends o _ _ str (SHA1Context.Holds.init sha)
  rw [shahash, hupdate, Option.bind_some]
  exact hsc.final o

/-- **However the data is cut into pieces**, on a host of either byte order and with any bytes in
the buffer at first, no byte is copied behind the buffer and the hash is that of the standard. -/
theorem sha1_pieces (buffer : Vector UInt8 64) (pieces : List (List UInt8)) :
    (exec (sha1Update o) (sha1Init buffer) pieces).bind (sha1Final o) =
      some (Standard.sha1 pieces.flatten) := by
  obtain ⟨sc, hrun, hsc⟩ := (SHA1Context.sha1Update_appends o).exec (.init buffer) pieces
  rw [hrun, Option.bind_some]
  exact hsc.final o

/-- **`SHA1_FAST_COPY` changes no hash**: a host that copies no whole blocks and one that copies
every byte, of either byte order, return the same for the same pieces. -/
theorem sha1_fast_copy (o' : ByteOrder) (buffer buffer' : Vector UInt8 64)
    (pieces : List (List UInt8)) :
    (exec (sha1UpdateFast o) (sha1Init buffer) pieces).bind (sha1FinalFast o) =
      (exec (sha1Update o') (sha1Init buffer') pieces).bind (sha1Final o') := by
  obtain ⟨sc, hrun, hsc⟩ := (SHA1Context.sha1UpdateFast_appends o).exec (.init buffer) pieces
  obtain ⟨sc', hrun', hsc'⟩ := (SHA1Context.sha1Update_appends o').exec (.init buffer') pieces
  rw [hrun, hrun', Option.bind_some, Option.bind_some, hsc.finalFast, hsc'.final]

end P2P
