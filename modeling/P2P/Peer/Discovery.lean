import P2P.Peer.DownloadInv

/-!
# Finding out who has a chunk

`WhoHas_sender` asks for the chunks of the needlist that are not in work, 50 hashes a
packet. A peer answers each packet with the hashes it has (`form_IHav`), and
`fill_toget_list` queues the chunks it offers.

* `asks_each_missing_once`: the packets of one `WhoHas_sender` call, all full but the
  last, ask for the needed chunks that are not in work, in their order;
* `discovery_exact`: after the answers of one peer the queue has, in front of its old
  nodes, exactly one node for each chunk that is needed, not in work, and held by that
  peer.
-/

namespace P2P

open Lib

abbrev maxHashnumPerPack : Nat := 50

/-! ## The packets -/

/-- The packet `form_WhoHas` and `form_IHav` make of the hashes they put in. -/
def hashPack (packetType : UInt8) (hashes : List Hash) : Packet :=
  { Packet.zero with
    packetType := packetType
    hdLen := headerLen.toUInt16
    magicNum := 15441
    versionNum := 1
    chunkhashNum := UInt8.ofNat hashes.length
    packLen := UInt16.ofNat (headerLen + hashes.length * hashSize + 4)
    payload := hashes.flatMap Vector.toList }

/-- The chunk is in none of the three lists. -/
def DownloadConn.untracked (down : DownloadConn) (hash : Hash) : Bool :=
  (findNode down.getTosendQuene hash).isNone && (findNode down.getSentList hash).isNone &&
    (findNode down.downloadingList hash).isNone

/-- The `for` loop of `form_WhoHas` with `count` hashes put in: the hashes it puts in from here on,
and the node it stops at. -/
def whoHasLoop (down : DownloadConn) : Nat → List HashChunk → List Hash × List HashChunk
  | _, [] => ([], [])
  | count, curr :: next =>
    if count < maxHashnumPerPack then
      if down.untracked curr.hash then
        (curr.hash :: (whoHasLoop down (count + 1) next).1, (whoHasLoop down (count + 1) next).2)
      else whoHasLoop down count next
    else ([], curr :: next)

/-- `form_WhoHas`: the packet and the node to go on from. -/
def formWhoHas (needlist : List HashChunk) (down : DownloadConn) : Packet × List HashChunk :=
  (hashPack 0 (whoHasLoop down 0 needlist).1, (whoHasLoop down 0 needlist).2)

/-- The `for` loop of `form_IHav` with `n` hashes left, from hash `count` on and with `len` hashes
put into `pload`. `none` where it reads behind the payload or writes behind `pload`. -/
def ihavLoop (whohas : Packet) (haslist : List HashChunk) : Nat → Nat → Nat → Option (List Hash)
  | 0, _, _ => some []
  | n + 1, count, len =>
    (payloadHash whohas count).bind fun findHash =>
      if (findNode haslist findHash).isSome then
        if len < maxHashnumPerPack then
          (ihavLoop whohas haslist n (count + 1) (len + 1)).map (findHash :: ·)
        else none
      else ihavLoop whohas haslist n (count + 1) len

def formIHav (whohas : Packet) (haslist : List HashChunk) : Option Packet :=
  (ihavLoop whohas haslist whohas.chunkhashNum.toNat 0 0).map (hashPack 1)

/-! ## The senders -/

/-- The `while` loop of `WhoHas_sender` from a node on: the packets broadcast, as the peers decode
them. Every pass takes a node or more. -/
def whoHasSendLoop (down : DownloadConn) : Nat → List HashChunk → Option (List Packet)
  | _, [] => some []
  | 0, _ :: _ => none
  | fuel + 1, curr :: next =>
    let whohasPack := (formWhoHas (curr :: next) down).1
    let rest := whoHasSendLoop down fuel (formWhoHas (curr :: next) down).2
    -- a packet that has nothing to ask for is not sent
    if whohasPack.chunkhashNum = 0 then rest
    else (sendPack whohasPack).bind fun m => rest.map (m :: ·)

def whoHasSender (needlist : List HashChunk) (down : DownloadConn) : Option (List Packet) :=
  whoHasSendLoop down needlist.length needlist

/-- `IHav_sender`: the packet sent back, if there is anything to offer. -/
def ihavSender (whoHasPack : Packet) (haslist : List HashChunk) : Option (List Packet) :=
  (formIHav whoHasPack haslist).bind fun ihavPack =>
    if 0 < ihavPack.chunkhashNum then (sendPack ihavPack).map ([·]) else some []

/-- The answers of a peer to the packets broadcast. -/
def ihavAnswers (haslist : List HashChunk) : List Packet → Option (List Packet)
  | [] => some []
  | pack :: packs =>
    (ihavSender pack haslist).bind fun ms => (ihavAnswers haslist packs).map (ms ++ ·)

/-- The answers from one peer, one after the other. -/
def fillAll (fromAddr : SockAddr) : List Packet → DownloadConn → Option DownloadConn
  | [], down => some down
  | pack :: packs, down => (fillTogetList pack fromAddr down).bind (fillAll fromAddr packs)

/-- The whole exchange with a peer that has the chunks of `haslist`. -/
def discover (haslist : List HashChunk) (fromAddr : SockAddr) (down : DownloadConn) :
    Option DownloadConn :=
  (whoHasSender down.needlist down).bind fun asks =>
    (ihavAnswers haslist asks).bind fun answers => fillAll fromAddr answers down

/-! ## Hashes in a payload -/

theorem Hash.ofBytes_append (h : Hash) (rest : List UInt8) :
    Hash.ofBytes (h.toList ++ rest) = some h := by
  have hlen : h.toList.length = hashSize := Vector.length_toList
  rw [Hash.ofBytes, dif_pos (by rw [List.length_append, hlen]; omega), Option.some.injEq]
  apply Vector.toArray_inj.mp
  show ((h.toList ++ rest).take hashSize).toArray = h.toArray
  rw [List.take_left' hlen]
  rfl

theorem ofBytes_flatMap (hashes : List Hash) (i : Nat) :
    Hash.ofBytes ((hashes.flatMap Vector.toList).drop (i * hashSize)) = hashes[i]? := by
  induction hashes generalizing i with
  | nil =>
    rw [List.flatMap_nil, List.drop_nil]
    rfl
  | cons h hashes ih =>
    have hlen : h.toList.length = hashSize := Vector.length_toList
    rw [List.flatMap_cons]
    cases i with
    | zero =>
      rw [Nat.zero_mul, List.drop_zero, Hash.ofBytes_append]
      rfl
    | succ i =>
      rw [Nat.succ_mul, Nat.add_comm, ← List.drop_drop, List.drop_left' hlen, ih]
      rfl

theorem length_flatMap_hashes (hashes : List Hash) :
    (hashes.flatMap Vector.toList).length = hashes.length * hashSize := by
  induction hashes with
  | nil => rfl
  | cons h hashes ih =>
    rw [List.flatMap_cons, List.length_append, ih, Vector.length_toList, List.length_cons,
      Nat.succ_mul, Nat.add_comm]

section
variable {ty : UInt8} {hashes : List Hash}

theorem payloadHash_hashPack (i : Nat) : payloadHash (hashPack ty hashes) i = hashes[i]? :=
  ofBytes_flatMap hashes i

theorem hashPack_chunkhashNum (ty : UInt8) (h : hashes.length ≤ maxHashnumPerPack) :
    (hashPack ty hashes).chunkhashNum.toNat = hashes.length := by
  have hmax : maxHashnumPerPack = 50 := rfl
  simp only [hashPack, UInt8.toNat_ofNat']
  omega

theorem hashPack_packLen (ty : UInt8) (h : hashes.length ≤ maxHashnumPerPack) :
    (hashPack ty hashes).packLen.toNat = 20 + hashes.length * hashSize := by
  have hhead : headerLen = 16 := rfl
  have hmul : hashes.length * hashSize ≤ 1000 := Nat.mul_le_mul_right hashSize h
  simp only [hashPack, UInt16.toNat_ofNat']
  omega

theorem hashPack_serialisable (hty : ty ≤ 1) (h : hashes.length ≤ maxHashnumPerPack) :
    (hashPack ty hashes).Serialisable := by
  have hnp : (hashPack ty hashes).nonPayloadLen = 20 := if_pos hty
  have hpay : (hashPack ty hashes).payload.length = hashes.length * hashSize :=
    length_flatMap_hashes hashes
  rw [Packet.Serialisable, hnp, hpay, hashPack_packLen ty h]
  omega

theorem hashPack_onWire (hty : ty ≤ 1) (h : hashes.length ≤ maxHashnumPerPack) :
    (hashPack ty hashes).onWire = hashPack ty hashes := by
  have hnp : (hashPack ty hashes).nonPayloadLen = 20 := if_pos hty
  have h4 : ty < 4 := UInt8.lt_of_le_of_lt hty (by decide)
  have hpay : (hashPack ty hashes).payload.length = hashes.length * hashSize :=
    length_flatMap_hashes hashes
  unfold Packet.onWire
  rw [hashPack_packLen ty h, hnp, Nat.add_sub_cancel_left]
  have hty' : (hashPack ty hashes).packetType = ty := rfl
  rw [hty', if_pos hty, if_pos h4, List.take_of_length_le (le_of_eq hpay)]
  rfl

theorem sendPack_hashPack (hty : ty ≤ 1) (h : hashes.length ≤ maxHashnumPerPack) :
    sendPack (hashPack ty hashes) = some (hashPack ty hashes) := by
  rw [sendPack_eq (hashPack_serialisable hty h), hashPack_onWire hty h]

end

/-! ## Asking -/

/-- The chunks asked for: the entries whose chunk is not in work, in their order. -/
def DownloadConn.missing (down : DownloadConn) (list : List HashChunk) : List Hash :=
  (list.filter fun x => down.untracked x.hash).map HashChunk.hash

section
variable (down : DownloadConn)

theorem whoHasLoop_spec (list : List HashChunk) : ∀ count, count ≤ maxHashnumPerPack →
    (whoHasLoop down count list).1 ++ down.missing (whoHasLoop down count list).2 =
        down.missing list ∧
      (whoHasLoop down count list).1.length + count ≤ maxHashnumPerPack ∧
      (whoHasLoop down count list).2.length ≤ list.length := by
  induction list with
  | nil => intro count h; exact ⟨rfl, by simpa [whoHasLoop] using h, le_refl _⟩
  | cons curr next ih =>
    intro count h
    rw [whoHasLoop]
    by_cases hroom : count < maxHashnumPerPack
    · rw [if_pos hroom]
      by_cases hnew : down.untracked curr.hash
      · obtain ⟨hjoin, hlen, hrest⟩ := ih (count + 1) hroom
        rw [if_pos hnew]
        refine ⟨?_, ?_, ?_⟩
        · rw [List.cons_append, hjoin]
          simp [DownloadConn.missing, hnew]
        · simp only [List.length_cons]
          omega
        · simp only [List.length_cons]
          omega
      · obtain ⟨hjoin, hlen, hrest⟩ := ih count h
        rw [if_neg hnew]
        refine ⟨?_, hlen, ?_⟩
        · rw [hjoin]
          simp [DownloadConn.missing, hnew]
        · simp only [List.length_cons]
          omega
    · rw [if_neg hroom]
      exact ⟨rfl, by simpa using h, le_refl _⟩

theorem whoHasLoop_progress (curr : HashChunk) (next : List HashChunk) :
    (whoHasLoop down 0 (curr :: next)).2.length ≤ next.length := by
  have hroom : 0 < maxHashnumPerPack := by decide
  rw [whoHasLoop, if_pos hroom]
  split
  · exact (whoHasLoop_spec down next 1 hroom).2.2
  · exact (whoHasLoop_spec down next 0 (Nat.zero_le _)).2.2

theorem whoHasLoop_full (list : List HashChunk) : ∀ count, count ≤ maxHashnumPerPack →
    (whoHasLoop down count list).2 ≠ [] →
      (whoHasLoop down count list).1.length + count = maxHashnumPerPack := by
  induction list with
  | nil => intro count _ hne; exact absurd rfl hne
  | cons curr next ih =>
    intro count h hne
    rw [whoHasLoop] at hne ⊢
    by_cases hroom : count < maxHashnumPerPack
    · rw [if_pos hroom] at hne ⊢
      by_cases hnew : down.untracked curr.hash
      · rw [if_pos hnew] at hne ⊢
        have := ih (count + 1) hroom hne
        simp only [List.length_cons]
        omega
      · rw [if_neg hnew] at hne ⊢
        exact ih count h hne
    · rw [if_neg hroom]
      simp only [List.length_nil]
      omega

/-- **`WhoHas_sender`** asks for each missing chunk, in packets of 50 hashes and a last one of at
most 50. -/
theorem whoHasSendLoop_spec (fuel : Nat) : ∀ list : List HashChunk, list.length ≤ fuel →
    ∃ batches : List (List Hash), whoHasSendLoop down fuel list = some (batches.map (hashPack 0)) ∧
      (∀ b ∈ batches, 1 ≤ b.length ∧ b.length ≤ maxHashnumPerPack) ∧
      (∀ b ∈ batches.dropLast, b.length = maxHashnumPerPack) ∧
      batches.flatten = down.missing list := by
  induction fuel with
  | zero =>
    intro list h
    obtain rfl := List.length_eq_zero_iff.mp (Nat.le_zero.mp h)
    exact ⟨[], rfl, by simp, by simp, rfl⟩
  | succ fuel ih =>
    intro list h
    cases list with
    | nil => exact ⟨[], rfl, by simp, by simp, rfl⟩
    | cons curr next =>
      obtain ⟨hjoin, hlen, -⟩ := whoHasLoop_spec down (curr :: next) 0 (Nat.zero_le _)
      have hrest := whoHasLoop_progress down curr next
      rw [List.length_cons] at h
      obtain ⟨batches, hrun, hsmall, hfull, hflat⟩ :=
        ih (whoHasLoop down 0 (curr :: next)).2 (by omega)
      have hnum := hashPack_chunkhashNum 0 (show _ ≤ maxHashnumPerPack from hlen)
      simp only [whoHasSendLoop, formWhoHas, hrun]
      split
      · rename_i hnone
        rw [hnone] at hnum
        have hnil := List.length_eq_zero_iff.mp hnum.symm
        refine ⟨batches, rfl, hsmall, hfull, ?_⟩
        rw [hflat, ← hjoin, hnil, List.nil_append]
      · rename_i hsome
        have hpos : 1 ≤ (whoHasLoop down 0 (curr :: next)).1.length := by
          rw [← hnum]
          exact Nat.pos_of_ne_zero fun h0 => hsome (UInt8.toNat_inj.mp h0)
        rw [sendPack_hashPack (by decide) hlen]
        refine ⟨(whoHasLoop down 0 (curr :: next)).1 :: batches, rfl, ?_, ?_, ?_⟩
        · exact List.forall_mem_cons.mpr ⟨⟨hpos, hlen⟩, hsmall⟩
        · -- another packet follows only if nodes are left
          cases batches with
          | nil => exact List.forall_mem_nil _
          | cons b batches =>
            have hleft : (whoHasLoop down 0 (curr :: next)).2 ≠ [] := by
              intro hnil
              rw [hnil, whoHasSendLoop] at hrun
              cases hrun
            rw [List.dropLast_cons_cons]
            exact List.forall_mem_cons.mpr
              ⟨whoHasLoop_full down (curr :: next) 0 (Nat.zero_le _) hleft, hfull⟩
        · rw [List.flatten_cons, hflat, hjoin]

end

/-! ## Answering -/

section
variable {haslist : List HashChunk} {hashes : List Hash} {ty : UInt8}

/-- The peer has the chunk. -/
def held (haslist : List HashChunk) (hash : Hash) : Bool := (findNode haslist hash).isSome

theorem ihavLoop_hashPack (n : Nat) : ∀ count len, len + n ≤ maxHashnumPerPack →
    count + n = hashes.length → ihavLoop (hashPack ty hashes) haslist n count len =
      some ((hashes.drop count).filter (held haslist)) := by
  induction n with
  | zero =>
    intro count len _ hn
    rw [ihavLoop, List.drop_eq_nil_of_le (by omega)]
    rfl
  | succ n ih =>
    intro count len hlen hn
    have hlt : count < hashes.length := by omega
    rw [ihavLoop, payloadHash_hashPack, List.getElem?_eq_getElem hlt, Option.bind_some,
      List.drop_eq_getElem_cons hlt, List.filter_cons, held]
    split
    · rw [if_pos (by omega), ih _ _ (by omega) (by omega)]
      rfl
    · rw [ih _ _ (by omega) (by omega)]

theorem length_ihavLoop {whohas : Packet} (n : Nat) :
    ∀ {count len : Nat} {hashes : List Hash}, len ≤ maxHashnumPerPack →
      ihavLoop whohas haslist n count len = some hashes →
        len + hashes.length ≤ maxHashnumPerPack := by
  induction n with
  | zero =>
    intro count len hashes hlen h
    cases h
    simpa using hlen
  | succ n ih =>
    intro count len hashes hlen h
    rw [ihavLoop, Option.bind_eq_some_iff] at h
    obtain ⟨hash, -, h⟩ := h
    split at h
    · split at h
      · rename_i hroom
        rw [Option.map_eq_some_iff] at h
        obtain ⟨rest, hrest, rfl⟩ := h
        have := ih (by omega) hrest
        simp only [List.length_cons]
        omega
      · cases h
    · exact ih hlen h

/-- **`form_IHav`** offers the hashes asked for that are held. -/
theorem formIHav_hashPack (h : hashes.length ≤ maxHashnumPerPack) :
    formIHav (hashPack ty hashes) haslist = some (hashPack 1 (hashes.filter (held haslist))) := by
  rw [formIHav, hashPack_chunkhashNum ty h, ihavLoop_hashPack _ 0 0 (by omega) (by omega)]
  rfl

theorem ihavSender_hashPack (ty : UInt8) (haslist : List HashChunk)
    (h : hashes.length ≤ maxHashnumPerPack) :
    ∃ batches : List (List Hash), ihavSender (hashPack ty hashes) haslist =
        some (batches.map (hashPack 1)) ∧
      (∀ b ∈ batches, b.length ≤ maxHashnumPerPack) ∧
      batches.flatten = hashes.filter (held haslist) := by
  have hle : (hashes.filter (held haslist)).length ≤ maxHashnumPerPack :=
    (List.length_filter_le ..).trans h
  have hnum := hashPack_chunkhashNum 1 hle
  rw [ihavSender, formIHav_hashPack h, Option.bind_some]
  by_cases hsome : 0 < (hashPack 1 (hashes.filter (held haslist))).chunkhashNum
  · rw [if_pos hsome, sendPack_hashPack (by decide) hle]
    exact ⟨[hashes.filter (held haslist)], rfl, by simpa using hle, by simp⟩
  · have hzero : (hashPack 1 (hashes.filter (held haslist))).chunkhashNum.toNat = 0 := by
      rw [UInt8.lt_iff_toNat_lt] at hsome
      exact Nat.eq_zero_of_not_pos hsome
    rw [if_neg hsome]
    refine ⟨[], rfl, by simp, ?_⟩
    rw [hzero] at hnum
    rw [List.length_eq_zero_iff.mp hnum.symm]
    rfl

theorem ihavAnswers_hashPack (ty : UInt8) (haslist : List HashChunk) (asks : List (List Hash))
    (h : ∀ b ∈ asks, b.length ≤ maxHashnumPerPack) :
    ∃ batches : List (List Hash), ihavAnswers haslist (asks.map (hashPack ty)) =
        some (batches.map (hashPack 1)) ∧
      (∀ b ∈ batches, b.length ≤ maxHashnumPerPack) ∧
      batches.flatten = asks.flatten.filter (held haslist) := by
  induction asks with
  | nil => exact ⟨[], rfl, by simp, rfl⟩
  | cons ask asks ih =>
    obtain ⟨first, hfirst, hsmall, hjoin⟩ :=
      ihavSender_hashPack ty haslist (h ask List.mem_cons_self)
    obtain ⟨rest, hrest, hsmall', hjoin'⟩ := ih fun b hb => h b (List.mem_cons_of_mem ask hb)
    refine ⟨first ++ rest, ?_, ?_, ?_⟩
    · rw [List.map_cons, ihavAnswers, hfirst, Option.bind_some, hrest, Option.map_some,
        List.map_append]
    · intro b hb
      exact (List.mem_append.mp hb).elim (hsmall b) (hsmall' b)
    · rw [List.flatten_append, hjoin, hjoin', List.flatten_cons, List.filter_append]

end

/-! ## Queueing -/

section
variable {addr : SockAddr} {down d : DownloadConn}

theorem fillLoop_hashPack {ty : UInt8} {hashes : List Hash} (n : Nat) : ∀ count d,
    count + n = hashes.length → fillLoop (hashPack ty hashes) addr n count d =
      some ((hashes.drop count).foldl (fun d hash => fillHash addr hash d) d) := by
  induction n with
  | zero =>
    intro count d hn
    rw [fillLoop, List.drop_eq_nil_of_le (by omega)]
    rfl
  | succ n ih =>
    intro count d hn
    have hlt : count < hashes.length := by omega
    rw [fillLoop, payloadHash_hashPack, List.getElem?_eq_getElem hlt, Option.bind_some,
      ih _ _ (by omega), List.drop_eq_getElem_cons hlt]
    rfl

theorem fillTogetList_hashPack {ty : UInt8} {hashes : List Hash}
    (h : hashes.length ≤ maxHashnumPerPack) : fillTogetList (hashPack ty hashes) addr d =
      some (hashes.foldl (fun d hash => fillHash addr hash d) d) := by
  rw [fillTogetList, hashPack_chunkhashNum _ h, fillLoop_hashPack _ 0 d (by omega)]
  rfl

theorem fillAll_hashPack (batches : List (List Hash))
    (h : ∀ b ∈ batches, b.length ≤ maxHashnumPerPack) :
    fillAll addr (batches.map (hashPack 1)) d =
      some (batches.flatten.foldl (fun d hash => fillHash addr hash d) d) := by
  induction batches generalizing d with
  | nil => rfl
  | cons b batches ih =>
    rw [List.map_cons, fillAll, fillTogetList_hashPack (h b List.mem_cons_self), Option.bind_some,
      ih fun b' hb' => h b' (List.mem_cons_of_mem b hb'), List.flatten_cons, List.foldl_append]

/-- `d` is `down` with the nodes `new` queued: one for each of the chunks `offered`, from the peer
that offers them, under the chunk id of the first needlist entry. -/
structure Queued (addr : SockAddr) (down : DownloadConn) (offered : List Hash) (d : DownloadConn)
    (new : List HashChunk) : Prop where
  frame : d = { down with
    getTosendQuene := new ++ down.getTosendQuene
    howmanyFound := down.howmanyFound + new.length }
  nodup : (new.map HashChunk.hash).Nodup
  mem : ∀ hash, hash ∈ new.map HashChunk.hash ↔ hash ∈ offered
  node : ∀ x ∈ new, ∃ entry, firstEntry down.needlist x.hash = some entry ∧
    x = createNode addr x.hash entry.chunkid

theorem untracked_iff {hash : Hash} : down.untracked hash ↔
    findNode down.getTosendQuene hash = none ∧ findNode down.getSentList hash = none ∧
      findNode down.downloadingList hash = none := by
  simp only [DownloadConn.untracked, Bool.and_eq_true, Option.isNone_iff_eq_none, and_assoc]

theorem untracked_iff_not_mem {hash : Hash} :
    down.untracked hash ↔ hash ∉ down.tracked.map HashChunk.hash := by
  rw [untracked_iff, findNode_none, findNode_none, findNode_none]
  simp only [DownloadConn.tracked, List.map_append, List.mem_append, not_or, and_assoc]

/-- **One hash offered**: a node for it is queued, unless that was done before. -/
theorem Queued.fillHash {offered : List Hash} {new : List HashChunk}
    (h : Queued addr down offered d new) {hash : Hash}
    (hneed : hash ∈ down.needlist.map HashChunk.hash) (hnew : down.untracked hash) :
    ∃ new', Queued addr down (offered ++ [hash]) (P2P.fillHash addr hash d) new' := by
  obtain ⟨hqueue, hsent, hload⟩ := untracked_iff.mp hnew
  obtain ⟨j, entry, hentry⟩ := exists_findNode hneed
  have hfirst := (findNode_spec hentry).2.2
  have hframe := h.frame
  subst hframe
  unfold P2P.fillHash
  simp only [hentry, hload, hsent]
  split
  · rename_i hnone
    have hfresh : hash ∉ new.map HashChunk.hash := by
      intro hmem
      exact findNode_none.mp hnone (by rw [List.map_append]; exact List.mem_append_left _ hmem)
    refine ⟨createNode addr hash entry.chunkid :: new, ?_, ?_, fun hash' => ?_, fun x hx => ?_⟩
    · simp only [appendNode, List.cons_append, List.length_cons, Nat.cast_succ, add_assoc]
    · exact List.nodup_cons.mpr ⟨hfresh, h.nodup⟩
    · rw [List.map_cons, List.mem_cons, h.mem, List.mem_append, List.mem_singleton, or_comm]
      rfl
    · rcases List.mem_cons.mp hx with rfl | hold
      · exact ⟨entry, hfirst, rfl⟩
      · exact h.node x hold
  · rename_i k stored hstored
    obtain ⟨hx, hhash, -⟩ := findNode_spec hstored
    -- the node stored is one of the new ones, so it has the same peer
    have hmem : stored ∈ new := by
      rcases List.mem_append.mp (List.mem_of_getElem? hx) with hin | hold
      · exact hin
      · have := List.mem_map_of_mem (f := HashChunk.hash) hold
        rw [hhash] at this
        exact absurd this (findNode_none.mp hqueue)
    obtain ⟨e, -, heq⟩ := h.node stored hmem
    have hport : stored.fromAddr = addr := by rw [heq]; rfl
    rw [if_neg (by rw [hport]; exact fun hne => hne.1 rfl)]
    refine ⟨new, rfl, h.nodup, fun hash' => ?_, h.node⟩
    have hoff : hash ∈ offered := by
      rw [← h.mem, ← hhash]
      exact List.mem_map_of_mem hmem
    rw [h.mem, List.mem_append, List.mem_singleton]
    exact ⟨.inl, fun hor => hor.elim id fun heq' => heq' ▸ hoff⟩

theorem Queued.foldl {offered : List Hash} {new : List HashChunk}
    (h : Queued addr down offered d new) (hashes : List Hash)
    (hok : ∀ hash ∈ hashes, hash ∈ down.needlist.map HashChunk.hash ∧ down.untracked hash) :
    ∃ new', Queued addr down (offered ++ hashes)
      (hashes.foldl (fun d hash => P2P.fillHash addr hash d) d) new' := by
  induction hashes generalizing offered d new with
  | nil => exact ⟨new, by rwa [List.append_nil]⟩
  | cons hash hashes ih =>
    obtain ⟨hneed, hnew⟩ := hok hash List.mem_cons_self
    obtain ⟨new₁, h₁⟩ := h.fillHash hneed hnew
    obtain ⟨new', h'⟩ := ih h₁ fun hash' hh => hok hash' (List.mem_cons_of_mem hash hh)
    rw [List.append_assoc] at h'
    exact ⟨new', h'⟩

end

theorem missing_eq (down : DownloadConn) (list : List HashChunk) :
    down.missing list =
      (list.filter fun x => x.hash ∉ down.tracked.map HashChunk.hash).map HashChunk.hash := by
  unfold DownloadConn.missing
  congr 1
  apply List.filter_congr
  intro x _
  rw [Bool.eq_iff_iff, untracked_iff_not_mem, decide_eq_true_iff]

/-- **WhoHas batching.** One `WhoHas_sender` call ends, and the packets it broadcasts ask, one after
the other, for the entries whose chunk is in none of the three lists. All packets but the last are
full, and none is empty. -/
theorem asks_each_missing_once (needlist : List HashChunk) (down : DownloadConn) :
    ∃ packs, whoHasSender needlist down = some packs ∧
      (∀ p ∈ packs, p.packetType = 0 ∧ 1 ≤ p.chunkhashNum.toNat ∧
        p.chunkhashNum.toNat ≤ maxHashnumPerPack ∧
        p.packLen.toNat = 20 + 20 * p.chunkhashNum.toNat ∧
        p.payload.length = 20 * p.chunkhashNum.toNat) ∧
      (∀ p ∈ packs.dropLast, p.chunkhashNum.toNat = maxHashnumPerPack) ∧
      packs.flatMap Packet.payload =
        (needlist.filter fun x => x.hash ∉ down.tracked.map HashChunk.hash).flatMap
          (fun x => x.hash.toList) ∧
      ((∀ x ∈ needlist, x.hash ∈ down.tracked.map HashChunk.hash) → packs = []) := by
  obtain ⟨batches, hrun, hsmall, hfull, hflat⟩ :=
    whoHasSendLoop_spec down needlist.length needlist (le_refl _)
  rw [missing_eq] at hflat
  refine ⟨batches.map (hashPack 0), hrun, fun p hp => ?_, fun p hp => ?_, ?_, fun hnone => ?_⟩
  · obtain ⟨b, hb, rfl⟩ := List.mem_map.mp hp
    obtain ⟨hpos, hle⟩ := hsmall b hb
    have hpay : (hashPack 0 b).payload.length = b.length * 20 := length_flatMap_hashes b
    rw [hashPack_chunkhashNum 0 hle, hashPack_packLen 0 hle, hpay, Nat.mul_comm 20]
    exact ⟨rfl, hpos, hle, rfl, rfl⟩
  · rw [← List.map_dropLast] at hp
    obtain ⟨b, hb, rfl⟩ := List.mem_map.mp hp
    rw [hashPack_chunkhashNum 0 (le_of_eq (hfull b hb)), hfull b hb]
  · calc (batches.map (hashPack 0)).flatMap Packet.payload
        = batches.flatMap fun b => b.flatMap Vector.toList := List.flatMap_map ..
      _ = batches.flatten.flatMap Vector.toList := by
          rw [← List.flatMap_id, List.flatMap_assoc]
          rfl
      _ = _ := by rw [hflat, List.flatMap_map]
  · -- nothing to ask for: a packet would have a hash
    have hnil : batches.flatten = [] := by
      rw [hflat, List.map_eq_nil_iff, List.filter_eq_nil_iff]
      intro x hx
      simpa using hnone x hx
    cases batches with
    | nil => rfl
    | cons b batches =>
      rw [List.flatten_cons, List.append_eq_nil_iff] at hnil
      have := (hsmall b List.mem_cons_self).1
      rw [hnil.1, List.length_nil] at this
      omega

/-- **Discovery is exact.** After a peer at `addr` that has the chunks of `haslist` has answered the
packets of `WhoHas_sender`, the queue has, in front of its old nodes, one new node for each chunk
that is needed, held by that peer and was not in work; nothing else has changed but the count. -/
theorem discovery_exact (haslist : List HashChunk) (addr : SockAddr) (down : DownloadConn) :
    ∃ down' new, discover haslist addr down = some down' ∧
      down' = { down with
        getTosendQuene := new ++ down.getTosendQuene
        howmanyFound := down.howmanyFound + new.length } ∧
      (new.map HashChunk.hash).Nodup ∧
      (∀ hash, hash ∈ new.map HashChunk.hash ↔
        hash ∈ down.needlist.map HashChunk.hash ∧ hash ∈ haslist.map HashChunk.hash ∧
          hash ∉ down.tracked.map HashChunk.hash) ∧
      ∀ x ∈ new, x.fromAddr = addr ∧
        ∃ entry, firstEntry down.needlist x.hash = some entry ∧
          x = createNode addr x.hash entry.chunkid := by
  obtain ⟨asks, hask, hasksmall, -, hasked⟩ :=
    whoHasSendLoop_spec down down.needlist.length down.needlist (le_refl _)
  have hsmall : ∀ b ∈ asks, b.length ≤ maxHashnumPerPack := fun b hb => (hasksmall b hb).2
  obtain ⟨offers, hanswer, hsmall', hoffered⟩ :=
    ihavAnswers_hashPack 0 haslist asks hsmall
  have hmem : ∀ hash, hash ∈ offers.flatten ↔ hash ∈ down.needlist.map HashChunk.hash ∧
      hash ∈ haslist.map HashChunk.hash ∧ hash ∉ down.tracked.map HashChunk.hash := by
    intro hash
    have hheld : held haslist hash = true ↔ hash ∈ haslist.map HashChunk.hash := by
      rw [held, Option.isSome_iff_ne_none, Ne, findNode_none, not_not]
    rw [hoffered, List.mem_filter, hasked, hheld, ← untracked_iff_not_mem]
    simp only [DownloadConn.missing, List.mem_map, List.mem_filter]
    constructor
    · rintro ⟨⟨x, ⟨hx, hun⟩, rfl⟩, hhas⟩
      exact ⟨⟨x, hx, rfl⟩, hhas, hun⟩
    · rintro ⟨⟨x, hx, rfl⟩, hhas, hun⟩
      exact ⟨⟨x, ⟨hx, hun⟩, rfl⟩, hhas⟩
  have hstart : Queued addr down [] down [] := by
    refine ⟨?_, List.nodup_nil, fun hash => Iff.rfl, fun x hx => absurd hx List.not_mem_nil⟩
    simp
  obtain ⟨new, hnew⟩ := hstart.foldl offers.flatten fun hash hh =>
    ⟨((hmem hash).mp hh).1, untracked_iff_not_mem.mpr ((hmem hash).mp hh).2.2⟩
  rw [List.nil_append] at hnew
  refine ⟨_, new, ?_, hnew.frame, hnew.nodup, fun hash => (hnew.mem hash).trans (hmem hash),
    fun x hx => ?_⟩
  · rw [discover, whoHasSender, hask, Option.bind_some, hanswer, Option.bind_some,
      fillAll_hashPack offers hsmall']
  · obtain ⟨entry, hfirst, heq⟩ := hnew.node x hx
    exact ⟨by rw [heq]; rfl, entry, hfirst, heq⟩

end P2P
