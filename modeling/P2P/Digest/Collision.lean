import P2P.Digest.Standard

/-!
# Two messages with one hash

The padding ends in the length of the message, so messages of different lengths end in different
blocks.

`sha1_collision`: two messages with the same hash have two blocks, one of each, at which the
compression function is given different inputs and returns the same.
-/

namespace P2P.Standard

open Lib

variable {msg msg' : List UInt8}

/-! ## The padding -/

theorem exists_pad (msg : List UInt8) : ∃ k body,
    pad msg = body ++ be64 (UInt64.ofNat (8 * msg.length)) ∧ body.length = 64 * k + 56 ∧
      msg = body.take msg.length := by
  refine ⟨(msg.length + 8) / 64,
    msg ++ 0x80 :: List.replicate ((119 - msg.length % 64) % 64) 0, rfl, ?_, ?_⟩
  · rw [List.length_append, List.length_cons, List.length_replicate]
    omega
  · rw [List.take_left]

theorem pad_injective (h : msg.length < 2 ^ 61) (h' : msg'.length < 2 ^ 61)
    (heq : pad msg = pad msg') : msg = msg' := by
  obtain ⟨k, body, hpad, hlen, hmsg⟩ := exists_pad msg
  obtain ⟨k', body', hpad', hlen', hmsg'⟩ := exists_pad msg'
  rw [hpad, hpad'] at heq
  obtain ⟨hbody, hlength⟩ := List.append_inj' heq rfl
  have hnum := congrArg UInt64.toNat (be64_injective hlength)
  rw [UInt64.toNat_ofNat', UInt64.toNat_ofNat', Nat.mod_eq_of_lt (by omega),
    Nat.mod_eq_of_lt (by omega)] at hnum
  have hnum : msg.length = msg'.length := by omega
  rw [hmsg, hmsg', hbody, hnum]

theorem exists_messageBlocks (msg : List UInt8) : ∃ bs b, messageBlocks msg = bs ++ [b] ∧
    b.drop 56 = be64 (UInt64.ofNat (8 * msg.length)) := by
  obtain ⟨k, body, hpad, hlen, -⟩ := exists_pad msg
  have hfront : (body.take (64 * k)).length = 64 * k := by
    rw [List.length_take]
    omega
  have hback : (body.drop (64 * k)).length = 56 := by
    rw [List.length_drop]
    omega
  refine ⟨blocks 64 (body.take (64 * k)),
    body.drop (64 * k) ++ be64 (UInt64.ofNat (8 * msg.length)), ?_, List.drop_left' hback⟩
  have hblock : (body.drop (64 * k) ++ be64 (UInt64.ofNat (8 * msg.length))).length = 64 := by
    rw [List.length_append, hback, length_be64]
  have hsplit : pad msg = body.take (64 * k) ++
      (body.drop (64 * k) ++ be64 (UInt64.ofNat (8 * msg.length))) := by
    rw [← List.append_assoc, List.take_append_drop, hpad]
  have hdvd : 64 ∣ (body.take (64 * k)).length := by
    rw [hfront]
    exact Nat.dvd_mul_right 64 k
  rw [messageBlocks, hsplit, blocks_append_of_dvd (by decide) hdvd,
    blocks_of_length (by decide) hblock]

theorem length_messageBlocks (h : msg.length = msg'.length) :
    (messageBlocks msg).length = (messageBlocks msg').length := by
  rw [messageBlocks, messageBlocks, length_blocks (by decide), length_blocks (by decide), pad, pad]
  simp only [List.length_append, List.length_cons, List.length_replicate, length_be64, h]

/-! ## The hash -/

theorem words_eq_of_sha1_eq (h : sha1 msg = sha1 msg') : words msg = words msg' := by
  have hmap := flatten_injective h
  apply Vector.ext
  intro k hk
  have hword := congrArg (fun v : Vector (Vector UInt8 4) 5 => v[k].toArray) hmap
  simp only [Vector.getElem_map] at hword
  exact be32_injective (congrArg Array.toList hword)

/-- **Different messages with the same hash** make the compression function collide. -/
theorem sha1_collision (hlen : msg.length < 2 ^ 61) (hlen' : msg'.length < 2 ^ 61)
    (hne : msg ≠ msg') (h : sha1 msg = sha1 msg') :
    Collide compress iv (messageBlocks msg) (messageBlocks msg') := by
  have hdvd : ∀ msg, 64 ∣ (pad msg).length := by
    intro msg
    obtain ⟨k, body, hpad, hbody, -⟩ := exists_pad msg
    rw [hpad, List.length_append, hbody, length_be64]
    omega
  refine chain_collision (fun hblocks => hne ?_) (fun hlast => ?_) (words_eq_of_sha1_eq h)
  · exact pad_injective hlen hlen' (eq_of_blocks_eq (by decide) (hdvd msg) (hdvd msg') hblocks)
  · obtain ⟨bs, b, hbs, hb⟩ := exists_messageBlocks msg
    obtain ⟨bs', b', hbs', hb'⟩ := exists_messageBlocks msg'
    refine ⟨bs, b, bs', b', hbs, hbs', fun hbb => hlast ?_⟩
    -- the last blocks agree only if the lengths do
    rw [hbb, hb'] at hb
    have hnum := congrArg UInt64.toNat (be64_injective hb)
    rw [UInt64.toNat_ofNat', UInt64.toNat_ofNat', Nat.mod_eq_of_lt (by omega),
      Nat.mod_eq_of_lt (by omega)] at hnum
    exact length_messageBlocks (by omega)

end P2P.Standard
