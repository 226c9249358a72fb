import P2P.Peer.DownloadRuns

/-!
# IHave packets that arrive twice

`fill_toget_list` queues a chunk offered, or moves it to the peer that offers it if the peer
stored is busy. `DownloadConn.Settled` says that it has nothing to do for a hash: the chunk is
not needed or a connection works on it, or a node of the queue stays where it is.

`repeated_ihave_harmless`: after an IHave packet all its hashes are settled, so the same
packet from the same address changes nothing any more.
-/

namespace P2P

open Lib

namespace DownloadConn

/-- A connection works on the chunks of this peer. -/
def busy (d : DownloadConn) (peer : SockAddr) : Prop :=
  (findNodeByAddr d.downloadingList peer).isSome ∨ (findNodeByAddr d.getSentList peer).isSome

/-- `fill_toget_list` has nothing to do for the hash if `addr` offers it. -/
def Settled (addr : SockAddr) (hash : Hash) (d : DownloadConn) : Prop :=
  findNode d.needlist hash = none ∨ (findNode d.downloadingList hash).isSome ∨
    (findNode d.getSentList hash).isSome ∨
    ∃ x, firstEntry d.getTosendQuene hash = some x ∧
      (addr.sinPort = x.fromAddr.sinPort ∨ ¬ d.busy x.fromAddr)

variable {addr : SockAddr} {hash hash' : Hash} {d d' : DownloadConn} {pack : Packet}

theorem fillHash_of_settled (h : d.Settled addr hash) : fillHash addr hash d = d := by
  unfold fillHash
  split
  · rename_i j entry hneed hload hsent
    rcases h with h | h | h | ⟨x, hfirst, hstays⟩
    · rw [hneed] at h
      cases h
    · rw [hload] at h
      cases h
    · rw [hsent] at h
      cases h
    · simp only
      split
      · rename_i hnone
        obtain ⟨hmem, hhash⟩ := firstEntry_hash hfirst
        exact absurd (List.mem_map.mpr ⟨x, hmem, hhash⟩) (findNode_none.mp hnone)
      · rename_i k stored hstored
        have hsame := (findNode_spec hstored).2.2
        rw [hfirst, Option.some.injEq] at hsame
        subst hsame
        apply if_neg
        rintro ⟨hport, hbusy⟩
        rcases hstays with hp | hb
        · exact hport hp
        · exact hb hbusy
  · rfl

/-- **One hash** is settled already, or a new node for it becomes the head of the queue, in place of
the old one if there was one. -/
theorem fillHash_cases (addr : SockAddr) (hash : Hash) (d : DownloadConn) :
    d.Settled addr hash ∨
    ∃ chunkid found queue,
      fillHash addr hash d =
        { d with
          getTosendQuene := createNode addr hash chunkid :: queue
          howmanyFound := found } ∧
      (queue = d.getTosendQuene ∨ ∃ k x, d.getTosendQuene[k]? = some x ∧ x.hash = hash ∧
        queue = deleteNode d.getTosendQuene k) := by
  cases hneed : findNode d.needlist hash with
  | none => exact .inl (.inl hneed)
  | some r =>
    obtain ⟨j, entry⟩ := r
    cases hload : findNode d.downloadingList hash with
    | some _ => exact .inl (.inr (.inl (by rw [hload]; rfl)))
    | none =>
      cases hsent : findNode d.getSentList hash with
      | some _ => exact .inl (.inr (.inr (.inl (by rw [hsent]; rfl))))
      | none =>
        unfold fillHash
        simp only [hneed, hload, hsent]
        cases hstored : findNode d.getTosendQuene hash with
        | none => exact .inr ⟨entry.chunkid, _, _, rfl, .inl rfl⟩
        | some s =>
          obtain ⟨k, stored⟩ := s
          obtain ⟨hx, hhash, hfirst⟩ := findNode_spec hstored
          by_cases hmove : addr.sinPort ≠ stored.fromAddr.sinPort ∧ d.busy stored.fromAddr
          · exact .inr ⟨entry.chunkid, d.howmanyFound, _, if_pos hmove,
              .inr ⟨k, stored, hx, hhash, rfl⟩⟩
          · exact .inl (.inr (.inr (.inr ⟨stored, hfirst, by tauto⟩)))

theorem settled_fillHash (addr : SockAddr) (hash : Hash) (d : DownloadConn) :
    (fillHash addr hash d).Settled addr hash := by
  rcases fillHash_cases addr hash d with h | ⟨chunkid, found, queue, heq, -⟩
  · rw [fillHash_of_settled h]
    exact h
  · rw [heq]
    refine .inr (.inr (.inr ⟨createNode addr hash chunkid, ?_, .inl rfl⟩))
    exact List.find?_cons_of_pos (beq_self_eq_true hash)

theorem Settled.fillHash (h : d.Settled addr hash) (hash' : Hash) :
    (fillHash addr hash' d).Settled addr hash := by
  rcases fillHash_cases addr hash' d with h' | ⟨chunkid, found, queue, heq, hqueue⟩
  · rw [fillHash_of_settled h']
    exact h
  · by_cases hsame : hash' = hash
    · rw [hsame]
      exact settled_fillHash addr hash d
    · rw [heq]
      rcases h with h | h | h | ⟨x, hfirst, hstays⟩
      · exact .inl h
      · exact .inr (.inl h)
      · exact .inr (.inr (.inl h))
      · refine .inr (.inr (.inr ⟨x, ?_, hstays⟩))
        have hskip : firstEntry (createNode addr hash' chunkid :: queue) hash =
            firstEntry queue hash :=
          List.find?_cons_of_neg (by simpa [createNode] using hsame)
        rw [hskip]
        rcases hqueue with rfl | ⟨k, y, hy, hyhash, rfl⟩
        · exact hfirst
        · rw [firstEntry_deleteNode hy (by rw [hyhash]; exact hsame)]
          exact hfirst

/-! ## The whole packet -/

theorem settled_fillLoop {n : Nat} : ∀ {count : Nat} {d d' : DownloadConn},
    fillLoop pack addr n count d = some d' → ∀ i, count ≤ i → i < count + n →
      ∃ hash, payloadHash pack i = some hash ∧ d'.Settled addr hash := by
  induction n with
  | zero => intro count d d' _ i h1 h2; omega
  | succ n ih =>
    intro count d d' h i h1 h2
    rw [fillLoop, Option.bind_eq_some_iff] at h
    obtain ⟨hash, hhash, h⟩ := h
    by_cases hi : i = count
    · refine ⟨hash, by rw [hi, hhash], ?_⟩
      exact fillLoop_induct (P := Settled addr hash) (fun d hash' hd => hd.fillHash hash')
        (settled_fillHash addr hash d) h
    · exact ih h i (by omega) (by omega)

theorem fillLoop_of_settled {n : Nat} : ∀ {count : Nat},
    (∀ i, count ≤ i → i < count + n →
      ∃ hash, payloadHash pack i = some hash ∧ d.Settled addr hash) →
    fillLoop pack addr n count d = some d := by
  induction n with
  | zero => intro count _; rfl
  | succ n ih =>
    intro count h
    obtain ⟨hash, hhash, hsettled⟩ := h count (le_refl _) (by omega)
    rw [fillLoop, hhash, Option.bind_some, fillHash_of_settled hsettled]
    exact ih fun i h1 h2 => h i (by omega) (by omega)

end DownloadConn

/-- **A repeated IHave packet is harmless.** In every state of the download side, `fill_toget_list`
changes nothing when it is given the packet it was just given again. -/
theorem repeated_ihave_harmless (pack : Packet) (addr : SockAddr) (down : DownloadConn)
    (hwf : pack.chunkhashNum.toNat * hashSize ≤ pack.payload.length) :
    ∃ down', fillTogetList pack addr down = some down' ∧
      fillTogetList pack addr down' = some down' := by
  obtain ⟨down', hrun⟩ := DownloadConn.exists_fillLoop addr pack.chunkhashNum.toNat 0 down
    (by rwa [Nat.zero_add])
  exact ⟨down', hrun, DownloadConn.fillLoop_of_settled (DownloadConn.settled_fillLoop hrun)⟩

/-- A chunk is queued for a peer that is busy. Another peer offers it, twice in one packet, and the
packet arrives twice: the chunk moves to that peer once. -/
theorem moved_to_another_peer_once :
    ∃ down' : DownloadConn,
      fillTogetList (ihavePack [Vector.replicate hashSize 5, Vector.replicate hashSize 5]) ⟨0, 3⟩
        { initDownloadConn ⟨4, ⟨0, 1⟩⟩ with
          needlist := [createNode ⟨0, 1⟩ (Vector.replicate hashSize 5) 0]
          getTosendQuene := [createNode ⟨0, 2⟩ (Vector.replicate hashSize 5) 0]
          getSentList := [createNode ⟨0, 2⟩ (Vector.replicate hashSize 6) 1] } = some down' ∧
      down'.getTosendQuene.map HashChunk.fromAddr = [⟨0, 3⟩] ∧
      fillTogetList (ihavePack [Vector.replicate hashSize 5, Vector.replicate hashSize 5]) ⟨0, 3⟩
        down' = some down' := by
  obtain ⟨down', hrun, htwice⟩ := repeated_ihave_harmless
    (ihavePack [Vector.replicate hashSize 5, Vector.replicate hashSize 5]) ⟨0, 3⟩
    { initDownloadConn ⟨4, ⟨0, 1⟩⟩ with
      needlist := [createNode ⟨0, 1⟩ (Vector.replicate hashSize 5) 0]
      getTosendQuene := [createNode ⟨0, 2⟩ (Vector.replicate hashSize 5) 0]
      getSentList := [createNode ⟨0, 2⟩ (Vector.replicate hashSize 6) 1] } (by decide)
  have hqueue : (some down').map (fun d => d.getTosendQuene.map HashChunk.fromAddr) =
      some [⟨0, 3⟩] := by
    rw [← hrun]
    decide
  exact ⟨down', hrun, Option.some.inj hqueue, htwice⟩

end P2P
