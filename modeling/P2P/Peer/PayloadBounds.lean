import P2P.Peer.Dispatch

/-!
# The bytes a handler reads

Three fields of a packet say how long its payload is: `Pack_len`, `Hd_len` and, for
WhoHas and IHave, the hash count. `binary2packet` trusts the first, the handlers of
hashes the third, and the receiver of data the difference of the first two.

`payload_safe_iff`: the handlers read only bytes that were sent exactly when the fields
agree (`FieldsAgree`).
-/

namespace P2P

open Lib

/-! ## The fields of a stream -/

def typeByte (l : List UInt8) : UInt8 := l.getD 3 0

def hdField (l : List UInt8) : UInt16 := ofBe16 (l.getD 4 0) (l.getD 5 0)

/-- The hash count of a WhoHas or IHave packet, 0 if the stream ends with its header. -/
def countByte (l : List UInt8) : UInt8 := l.getD headerLen 0

/-- The `i`-th hash behind the count and its pad bytes. -/
def hashAt (l : List UInt8) (i : Nat) : Option Hash := Hash.ofBytes (l.drop (20 + i * hashSize))

theorem decodeHeader_fields {l : List UInt8} (h16 : headerLen ≤ l.length) :
    ∃ q, decodeHeader (l ++ [0]) = some q ∧ q.packetType = typeByte l ∧ q.hdLen = hdField l ∧
      q.packLen.toNat = lenField l ∧ q.payload = [] := by
  match l, h16 with
  | _ :: _ :: _ :: _ :: _ :: _ :: _ :: _ :: _ :: _ :: _ :: _ :: _ :: _ :: _ :: _ :: _, _ =>
    simp [decodeHeader, typeByte, hdField, lenField, Packet.zero]

/-- The hash count is the byte behind the header, which a header alone has as the zero byte that
ends the stream. -/
theorem getElem?_countByte {l : List UInt8} (h16 : headerLen ≤ l.length) :
    (l ++ [0])[headerLen]? = some (countByte l) := by
  rw [countByte, List.getD_eq_getElem?_getD]
  by_cases hend : headerLen < l.length
  · rw [List.getElem?_append_left hend, List.getElem?_eq_getElem hend]
    rfl
  · rw [List.getElem?_append_right (Nat.le_of_not_lt hend),
      List.getElem?_eq_none (Nat.le_of_not_lt hend), Nat.sub_eq_zero_of_le h16]
    rfl

theorem decodePayload_fields {l : List UInt8} {r : Packet} (hlen : r.packLen.toNat = l.length)
    (hpay : r.payload = []) :
    ∃ p, decodePayload (l ++ [0]) r = some p ∧ p.packetType = r.packetType ∧ p.hdLen = r.hdLen ∧
      p.packLen = r.packLen ∧ p.chunkhashNum = r.chunkhashNum ∧
      (r.packetType < 4 → p.payload = l.drop r.nonPayloadLen) := by
  have hfit : r.packLen.toNat ≤ (l ++ [0]).length := by
    rw [hlen, List.length_append]
    exact Nat.le_add_right ..
  unfold decodePayload
  by_cases hc : r.packetType < 4 ∧ r.nonPayloadLen < r.packLen.toNat
  · rw [if_pos hc, if_pos hfit]
    refine ⟨_, rfl, rfl, rfl, rfl, rfl, fun _ => ?_⟩
    show ((l ++ [0]).drop r.nonPayloadLen).take (r.packLen.toNat - r.nonPayloadLen) = _
    rw [hlen] at hc ⊢
    rw [List.drop_append_of_le_length (le_of_lt hc.2),
      List.take_left' (by rw [List.length_drop])]
  · rw [if_neg hc]
    refine ⟨r, rfl, rfl, rfl, rfl, rfl, fun h4 => ?_⟩
    rw [hlen] at hc
    rw [hpay, List.drop_eq_nil_of_le (Nat.le_of_not_lt fun hlt => hc ⟨h4, hlt⟩)]

/-- `p` has the fields of the stream `l`, and the bytes behind them. -/
structure DecodedFrom (l : List UInt8) (p : Packet) : Prop where
  type : p.packetType = typeByte l
  hdLen : p.hdLen = hdField l
  packLen : p.packLen.toNat = l.length
  count : typeByte l ≤ 1 → p.chunkhashNum = countByte l
  payload : typeByte l < 4 → p.payload = l.drop (if typeByte l ≤ 1 then 20 else headerLen)

/-- **A stream of the length its field says** is decoded into its fields and the bytes behind
them. -/
theorem binary2packet_fields {l : List UInt8} (h16 : headerLen ≤ l.length)
    (hlen : lenField l = l.length) : ∃ p, binary2packet (l ++ [0]) = some p ∧ DecodedFrom l p := by
  obtain ⟨q, hq, hty, hhd, hpl, hpay⟩ := decodeHeader_fields h16
  have hql : q.packLen.toNat = l.length := hpl.trans hlen
  have hnp : q.nonPayloadLen = if typeByte l ≤ 1 then 20 else headerLen := by
    rw [Packet.nonPayloadLen, hty]
  unfold binary2packet
  rw [hq, Option.bind_some]
  by_cases h1 : q.packetType ≤ 1
  · obtain ⟨p, hp, hpty, hphd, hppl, hpc, hppay⟩ :=
      decodePayload_fields (r := { q with chunkhashNum := countByte l }) hql hpay
    rw [if_pos h1, getElem?_countByte h16, Option.bind_some]
    refine ⟨p, hp, hpty.trans hty, hphd.trans hhd, by rw [hppl, ← hql], fun _ => hpc, fun h4 => ?_⟩
    rw [← hnp]
    exact hppay (hty ▸ h4)
  · obtain ⟨p, hp, hpty, hphd, hppl, -, hppay⟩ := decodePayload_fields hql hpay
    rw [if_neg h1]
    refine ⟨p, hp, hpty.trans hty, hphd.trans hhd, by rw [hppl, ← hql],
      fun h => absurd (hty ▸ h) h1, fun h4 => ?_⟩
    rw [← hnp]
    exact hppay (hty ▸ h4)

/-! ## The loops over hashes -/

section
variable {p : Packet} {haslist : List HashChunk} {addr : SockAddr}

theorem payloadHash_isSome (i : Nat) :
    (∃ hash, payloadHash p i = some hash) ↔ hashSize * (i + 1) ≤ p.payload.length := by
  have hmul : hashSize * (i + 1) = i * hashSize + hashSize := by rw [Nat.mul_succ, Nat.mul_comm]
  have hdrop : (p.payload.drop (i * hashSize)).length = p.payload.length - i * hashSize :=
    List.length_drop
  have hpos : 0 < hashSize := by decide
  unfold payloadHash Hash.ofBytes
  by_cases h : hashSize ≤ (p.payload.drop (i * hashSize)).length
  · rw [dif_pos h]
    exact ⟨fun _ => by omega, fun _ => ⟨_, rfl⟩⟩
  · rw [dif_neg h]
    constructor
    · rintro ⟨_, ⟨⟩⟩
    · intro hle
      omega

/-- The peer has the `i`-th chunk of a packet. -/
def heldAt (p : Packet) (haslist : List HashChunk) (i : Nat) : Bool :=
  (payloadHash p i).any (held haslist)

/-- **The loop of `form_IHav`** stays in its buffers exactly when the hashes are there and at most
50 of them are held. -/
theorem ihavLoop_isSome (p : Packet) (haslist : List HashChunk) (n : Nat) :
    ∀ {count len : Nat}, len ≤ maxHashnumPerPack →
    hashSize * count ≤ p.payload.length →
    ((∃ hashes, ihavLoop p haslist n count len = some hashes) ↔
      hashSize * (count + n) ≤ p.payload.length ∧
        len + (List.range' count n).countP (heldAt p haslist) ≤ maxHashnumPerPack) := by
  induction n with
  | zero =>
    intro count len hlen hread
    exact ⟨fun _ => ⟨hread, by simpa using hlen⟩, fun _ => ⟨[], rfl⟩⟩
  | succ n ih =>
    intro count len hlen hread
    rw [ihavLoop, List.range'_succ, List.countP_cons, ← Nat.add_assoc, Nat.add_right_comm count n 1]
    by_cases hsome : ∃ hash, payloadHash p count = some hash
    · have hnext := (payloadHash_isSome count).mp hsome
      obtain ⟨hash, hhash⟩ := hsome
      have hheld : heldAt p haslist count = (findNode haslist hash).isSome := by
        rw [heldAt, hhash]
        rfl
      rw [hhash, Option.bind_some, hheld]
      by_cases hin : (findNode haslist hash).isSome
      · rw [if_pos hin, if_pos hin]
        by_cases hroom : len < maxHashnumPerPack
        · rw [if_pos hroom]
          have hiff := ih (show len + 1 ≤ maxHashnumPerPack from hroom) hnext
          rw [show len + ((List.range' (count + 1) n).countP (heldAt p haslist) + 1) =
            len + 1 + (List.range' (count + 1) n).countP (heldAt p haslist) by omega, ← hiff]
          simp [Option.map_eq_some_iff]
        · rw [if_neg hroom]
          constructor
          · rintro ⟨_, ⟨⟩⟩
          · rintro ⟨-, hcount⟩
            omega
      · rw [if_neg hin, if_neg hin, Nat.add_zero]
        exact ih hlen hnext
    · have hnone : payloadHash p count = none :=
        Option.eq_none_iff_forall_ne_some.mpr fun hash hh => hsome ⟨hash, hh⟩
      rw [hnone, Option.bind_none]
      constructor
      · rintro ⟨_, ⟨⟩⟩
      · rintro ⟨hread', -⟩
        refine absurd ((payloadHash_isSome count).mpr ?_) hsome
        exact le_trans (Nat.mul_le_mul_left hashSize (by omega)) hread'

/-- **The loop of `fill_toget_list`** stays in the payload exactly when the hashes are there. -/
theorem fillLoop_isSome (addr : SockAddr) (n : Nat) : ∀ {count : Nat} {down : DownloadConn},
    hashSize * count ≤ p.payload.length →
    ((∃ down', fillLoop p addr n count down = some down') ↔
      hashSize * (count + n) ≤ p.payload.length) := by
  induction n with
  | zero =>
    intro count down hread
    exact ⟨fun _ => hread, fun _ => ⟨down, rfl⟩⟩
  | succ n ih =>
    intro count down hread
    rw [fillLoop, ← Nat.add_assoc, Nat.add_right_comm]
    by_cases hsome : ∃ hash, payloadHash p count = some hash
    · have hnext := (payloadHash_isSome count).mp hsome
      obtain ⟨hash, hhash⟩ := hsome
      rw [hhash, Option.bind_some]
      exact ih hnext
    · have hnone : payloadHash p count = none :=
        Option.eq_none_iff_forall_ne_some.mpr fun hash hh => hsome ⟨hash, hh⟩
      rw [hnone, Option.bind_none]
      constructor
      · rintro ⟨_, ⟨⟩⟩
      · intro hread'
        refine absurd ((payloadHash_isSome count).mpr ?_) hsome
        exact le_trans (Nat.mul_le_mul_left hashSize (by omega)) hread'

end

/-! ## The handlers -/

/-- The handlers stay in their buffers: they read no hash behind the payload and place at most 50,
and the length a DATA packet is counted and copied with is that of its payload. -/
structure PayloadSafe (fl : Rounding) (me : PeerMe) (addr : SockAddr) (p : Packet) : Prop where
  handled : p.packetType ≤ 2 →
    ∀ file now, ∃ r, dealwithincomepack fl file now p addr me = some r
  hashes : p.packetType ≤ 1 → hashSize * p.chunkhashNum.toNat ≤ p.payload.length
  data : p.packetType = 3 → 0 ≤ p.dataLen ∧ p.dataLen = p.payload.length

/-- What the fields of a stream must say. One of less than 20 bytes has no room for a hash. -/
structure FieldsAgree (me : PeerMe) (addr : SockAddr) (l : List UInt8) : Prop where
  hashes : typeByte l ≤ 1 → hashSize * (countByte l).toNat ≤ l.length - 20
  asked : typeByte l = 0 → (List.range (countByte l).toNat).countP
    (fun i => (hashAt l i).any (held me.haslist)) ≤ maxHashnumPerPack
  get : typeByte l = 2 → me.myupload.free addr → headerLen + hashSize ≤ l.length
  data : typeByte l = 3 → (hdField l).toNat = headerLen

section
variable {fl : Rounding} {file : Option (List UInt8)} {now : Int} {p : Packet} {addr : SockAddr}
  {me : PeerMe} {haslist : List HashChunk} {up : UploadConn}

theorem ihavSender_isSome :
    (∃ ms, ihavSender p haslist = some ms) ↔
      hashSize * p.chunkhashNum.toNat ≤ p.payload.length ∧
        (List.range p.chunkhashNum.toNat).countP (heldAt p haslist) ≤ maxHashnumPerPack := by
  have hloop := ihavLoop_isSome p haslist p.chunkhashNum.toNat
    (show 0 ≤ maxHashnumPerPack from Nat.zero_le _)
    (show hashSize * 0 ≤ p.payload.length from Nat.zero_le _)
  rw [Nat.zero_add, Nat.zero_add, ← List.range_eq_range'] at hloop
  rw [← hloop, ihavSender, formIHav]
  constructor
  · rintro ⟨ms, h⟩
    rw [Option.bind_eq_some_iff] at h
    obtain ⟨pack, h, -⟩ := h
    rw [Option.map_eq_some_iff] at h
    obtain ⟨hashes, h, -⟩ := h
    exact ⟨hashes, h⟩
  · rintro ⟨hashes, h⟩
    have hle := length_ihavLoop _ (Nat.zero_le _) h
    rw [Nat.zero_add] at hle
    rw [h, Option.map_some, Option.bind_some, sendPack_hashPack (by decide) hle]
    split <;> exact ⟨_, rfl⟩

theorem fillTogetList_isSome {down : DownloadConn} :
    (∃ down', fillTogetList p addr down = some down') ↔
      hashSize * p.chunkhashNum.toNat ≤ p.payload.length := by
  have hloop : (∃ down', fillLoop p addr p.chunkhashNum.toNat 0 down = some down') ↔
      hashSize * (0 + p.chunkhashNum.toNat) ≤ p.payload.length :=
    fillLoop_isSome addr p.chunkhashNum.toNat (Nat.zero_le _)
  rwa [Nat.zero_add] at hloop

theorem exists_initUpload_some (haslist : List HashChunk) (file : Option (List UInt8)) (now : Int)
    (hash : Hash) (addr : SockAddr) (up : UploadConn) :
    ∃ r, initUpload haslist file now hash addr up = some r := by
  unfold initUpload
  split
  · obtain ⟨w, r, hrun, -⟩ := UploadConn.sendOnechunk_cases file hash addr
    rw [hrun]
    exact ⟨_, rfl⟩
  · exact ⟨_, rfl⟩

theorem dealwithGET_isSome :
    (∃ r, dealwithGET haslist file now p addr up = some r) ↔
      (up.free addr → hashSize ≤ p.payload.length) := by
  have hread := payloadHash_isSome (p := p) 0
  rw [Nat.zero_add, Nat.mul_one] at hread
  unfold dealwithGET
  by_cases hfree : up.free addr
  · rw [if_pos hfree]
    simp only [hfree, forall_const]
    rw [← hread]
    constructor
    · rintro ⟨r, h⟩
      rw [Option.bind_eq_some_iff] at h
      obtain ⟨hash, h, -⟩ := h
      exact ⟨hash, h⟩
    · rintro ⟨hash, h⟩
      obtain ⟨init, hinit⟩ := exists_initUpload_some haslist file now hash addr up
      rw [h, Option.bind_some, hinit, Option.map_some]
      split
      · exact ⟨_, rfl⟩
      · split <;> exact ⟨_, rfl⟩
  · rw [if_neg hfree]
    exact ⟨fun _ h => absurd h hfree, fun _ => ⟨_, rfl⟩⟩

theorem type_cases {t : UInt8} (h : t ≤ 2) : t = 0 ∨ t = 1 ∨ t = 2 := by
  have := UInt8.le_iff_toNat_le.mp h
  simp only [← UInt8.toNat_inj] at *
  simp at *
  omega

/-- **Packets of the first three types** are handled whatever the data file gives, exactly if the
hashes are there and few enough of them are held. -/
theorem handled_iff (h2 : p.packetType ≤ 2) :
    (∀ file now, ∃ r, dealwithincomepack fl file now p addr me = some r) ↔
      (p.packetType ≤ 1 → hashSize * p.chunkhashNum.toNat ≤ p.payload.length) ∧
      (p.packetType = 0 → (List.range p.chunkhashNum.toNat).countP (heldAt p me.haslist) ≤
        maxHashnumPerPack) ∧
      (p.packetType = 2 → me.myupload.free addr → hashSize ≤ p.payload.length) := by
  have hmap : ∀ {α β : Type} {o : Option α} (f : α → β),
      (∃ b, o.map f = some b) ↔ ∃ a, o = some a := by
    intro α β o f
    cases o <;> simp
  unfold dealwithincomepack
  rcases type_cases h2 with h | h | h
  · simp only [h, if_true, hmap, ihavSender_isSome]
    simp
  · have h0 : (1 : UInt8) ≠ 0 := by decide
    simp only [h, if_neg h0, if_true, hmap, fillTogetList_isSome]
    simp
  · have h0 : (2 : UInt8) ≠ 0 := by decide
    have h1 : (2 : UInt8) ≠ 1 := by decide
    simp only [h, if_neg h0, if_neg h1, if_true, hmap, dealwithGET_isSome]
    simp

theorem payloadSafe_iff : PayloadSafe fl me addr p ↔
    (p.packetType ≤ 1 → hashSize * p.chunkhashNum.toNat ≤ p.payload.length) ∧
    (p.packetType = 0 → (List.range p.chunkhashNum.toNat).countP (heldAt p me.haslist) ≤
      maxHashnumPerPack) ∧
    (p.packetType = 2 → me.myupload.free addr → hashSize ≤ p.payload.length) ∧
    (p.packetType = 3 → 0 ≤ p.dataLen ∧ p.dataLen = p.payload.length) := by
  constructor
  · rintro ⟨hhandled, hhashes, hdata⟩
    refine ⟨hhashes, fun h => ?_, fun h => ?_, hdata⟩
    · exact ((handled_iff (by rw [h]; decide)).mp (hhandled (by rw [h]; decide))).2.1 h
    · exact ((handled_iff (by rw [h]; decide)).mp (hhandled (by rw [h]; decide))).2.2 h
  · rintro ⟨hhashes, hasked, hget, hdata⟩
    exact ⟨fun h => (handled_iff h).mpr ⟨hhashes, hasked, hget⟩, hhashes, hdata⟩

/-! ## The fields of a stream and the handlers -/

namespace DecodedFrom

variable {l : List UInt8}

theorem payload_hashes (hd : DecodedFrom l p) (h1 : p.packetType ≤ 1) :
    p.payload = l.drop 20 := by
  rw [hd.type] at h1
  rw [hd.payload (UInt8.lt_of_le_of_lt h1 (by decide)), if_pos h1]

theorem payload_other (hd : DecodedFrom l p) (h1 : ¬ p.packetType ≤ 1) (h4 : p.packetType < 4) :
    p.payload = l.drop headerLen := by
  rw [hd.type] at h1 h4
  rw [hd.payload h4, if_neg h1]

theorem heldAt_eq (hd : DecodedFrom l p) (h1 : p.packetType ≤ 1) (haslist : List HashChunk) :
    heldAt p haslist = fun i => (hashAt l i).any (held haslist) := by
  funext i
  rw [heldAt, payloadHash, hd.payload_hashes h1, List.drop_drop]
  rfl

theorem get_iff (hd : DecodedFrom l p) (h2 : p.packetType = 2) :
    hashSize ≤ p.payload.length ↔ headerLen + hashSize ≤ l.length := by
  have hpos : 0 < hashSize := by decide
  rw [hd.payload_other (by rw [h2]; decide) (by rw [h2]; decide), List.length_drop]
  omega

theorem data_iff (hd : DecodedFrom l p) (h16 : headerLen ≤ l.length) (h3 : p.packetType = 3) :
    0 ≤ p.dataLen ∧ p.dataLen = p.payload.length ↔ (hdField l).toNat = headerLen := by
  rw [hd.payload_other (by rw [h3]; decide) (by rw [h3]; decide), List.length_drop, Packet.dataLen,
    hd.packLen, hd.hdLen]
  omega

/-- **The handlers of a decoded packet.** -/
theorem payloadSafe_iff_fieldsAgree (hd : DecodedFrom l p) (h16 : headerLen ≤ l.length) :
    PayloadSafe fl me addr p ↔ FieldsAgree me addr l := by
  have hcount : p.packetType ≤ 1 → p.chunkhashNum = countByte l := by
    rw [hd.type]
    exact hd.count
  have hhashes : p.packetType ≤ 1 → p.payload.length = l.length - 20 := by
    intro h1
    rw [hd.payload_hashes h1, List.length_drop]
  rw [payloadSafe_iff]
  constructor
  · rintro ⟨h1, h0, h2, h3⟩
    refine ⟨fun h => ?_, fun h => ?_, fun h hfree => ?_, fun h => ?_⟩ <;> rw [← hd.type] at h
    · rw [← hhashes h, ← hcount h]
      exact h1 h
    · have hle : p.packetType ≤ 1 := by rw [h]; decide
      rw [← hd.heldAt_eq hle, ← hcount hle]
      exact h0 h
    · exact (hd.get_iff h).mp (h2 h hfree)
    · exact (hd.data_iff h16 h).mp (h3 h)
  · rintro ⟨h1, h0, h2, h3⟩
    rw [← hd.type] at h1 h0 h2 h3
    refine ⟨fun h => ?_, fun h => ?_, fun h hfree => ?_, fun h => ?_⟩
    · rw [hhashes h, hcount h]
      exact h1 h
    · have hle : p.packetType ≤ 1 := by rw [h]; decide
      rw [hd.heldAt_eq hle, hcount hle]
      exact h0 h
    · exact (hd.get_iff h).mpr (h2 h hfree)
    · exact (hd.data_iff h16 h).mpr (h3 h)

end DecodedFrom

end

/-- **The handlers use bytes that were sent** exactly when the length fields agree and a WhoHas
packet asks for at most 50 of the chunks held. -/
theorem payload_safe_iff (fl : Rounding) (me : PeerMe) (addr : SockAddr) {l : List UInt8}
    (h16 : headerLen ≤ l.length) (hlen : lenField l = l.length) :
    (∃ p, binary2packet (l ++ [0]) = some p ∧ PayloadSafe fl me addr p) ↔
      FieldsAgree me addr l := by
  obtain ⟨p, hp, hd⟩ := binary2packet_fields h16 hlen
  constructor
  · rintro ⟨q, hq, hsafe⟩
    rw [hp, Option.some.injEq] at hq
    exact (hd.payloadSafe_iff_fieldsAgree h16).mp (hq ▸ hsafe)
  · intro hagree
    exact ⟨p, hp, (hd.payloadSafe_iff_fieldsAgree h16).mpr hagree⟩

/-- A WhoHas packet of one hash that the peer does not have. -/
theorem payload_safe_one_hash :
    let l := (hashPack 0 [Vector.replicate hashSize 0]).header ++ [1, 0, 0, 0] ++
      List.replicate hashSize 0
    let config : Config := ⟨4, ⟨0, 0⟩⟩
    ∃ p, binary2packet (l ++ [0]) = some p ∧
      PayloadSafe .exact ⟨[], initDownloadConn config, initUploadConn config⟩ ⟨1, 80⟩ p :=
  (payload_safe_iff .exact _ ⟨1, 80⟩ (by decide) (by decide)).mpr
    ⟨by decide, by decide, by decide, by decide⟩

/-- A WhoHas packet of 20 bytes that announces 255 hashes: `form_IHav` reads behind its payload. -/
theorem announced_hashes_missing :
    ∃ l p, headerLen ≤ l.length ∧ l.length ≤ 1500 ∧ lenField l = l.length ∧
      binary2packet (l ++ [0]) = some p ∧ p.payload = [] ∧ p.chunkhashNum = 255 ∧
      ∀ file now addr me, dealwithincomepack .exact file now p addr me = none := by
  refine ⟨({ Packet.zero with packLen := 20 } : Packet).header ++ [255, 0, 0, 0],
    { Packet.zero with packLen := 20, chunkhashNum := 255 }, by decide, by decide, by decide,
    rfl, rfl, rfl, fun file now addr me => ?_⟩
  rfl

end P2P
