import P2P.Lib.Words
import P2P.Peer.HasneedLines
import P2P.Peer.Inbound

/-!
# The list of peers

`bt_parse_peer_list` reads the number, the host and the port of each peer from a file, into
variables that keep what an earlier line has left in them. `WhoHas_sender` broadcasts its packets to
all peers of the list but the peer itself.
-/

namespace P2P

open Lib

/-! ## Numbers -/

/-- What `%d` does. -/
inductive ScannedInt
  | eof
  | mismatch
  /-- The number is no `int`. -/
  | overflow
  | number (value : Int) (rest : List UInt8)

/-- `%d`. -/
def scanInt (s : List UInt8) : ScannedInt :=
  let s := s.dropWhile isspace
  if s = [] then .eof
  else
    let (sign, s) := scanSign s
    let digits := s.takeWhile isdigit
    if digits = [] then .mismatch
    else
      let value := sign * digitsValue digits
      if value < -2 ^ 31 ∨ 2 ^ 31 ≤ value then .overflow
      else .number value (s.dropWhile isdigit)

/-! ## `bt_parse.c` -/

/-- `(short) n`. -/
def toI16 (n : Int) : Int := Int.bmod n (2 ^ 16)

structure BtPeer where
  id : Int
  addr : SockAddr
  deriving DecidableEq

/-- The variables of `bt_parse_peer_list`, and the list so far. -/
structure NodeVars where
  nodeid : Int
  hostname : List UInt8
  port : Int
  peers : List BtPeer

/-- `sscanf(line, "%d %s %d", &nodeid, hostname, &port)`, with what it returns; `-1` stands for
`EOF`. No word of a line is too long for `hostname`. -/
def scanNode (line : List UInt8) (v : NodeVars) : Option (Int × NodeVars) :=
  match scanInt line with
  | .eof => some (-1, v)
  | .mismatch => some (0, v)
  | .overflow => none
  | .number nodeid s =>
    match scanWord isspace btFilenameLen s with
    | none => some (1, { v with nodeid := nodeid })
    | some (hostname, s) =>
      match scanInt s with
      | .overflow => none
      | .number port _ => some (3, { v with
          nodeid := nodeid
          hostname := hostname
          port := port })
      | _ => some (2, { v with
          nodeid := nodeid
          hostname := hostname })

section
variable (gethostbyname : List UInt8 → Option UInt32)

/-- The body of the loop for what `fgets` has read. `none` where an assertion fails, or `sscanf` is
undefined. -/
def peerLine (v : NodeVars) (line : List UInt8) : Option NodeVars :=
  if line.head? = some 35 then some v
  else
    (scanNode (cstr (line ++ [0])) v).bind fun (ret, v) =>
      if ret = 0 then none
      else
        (gethostbyname v.hostname).map fun sinAddr =>
          { v with peers := ⟨toI16 v.nodeid, ⟨sinAddr, UInt16.ofInt v.port⟩⟩ :: v.peers }

/-- `bt_parse_peer_list`, from the text of the file and the values its variables have before they
are set. -/
def btParsePeerList (v : NodeVars) (text : List UInt8) : Option (List BtPeer) :=
  (readLoop newline (btFilenameLen - 1) (peerLine gethostbyname) (text.length + 1) text
    { v with peers := [] }).map NodeVars.peers

end

/-- `bt_peer_info`. -/
def btPeerInfo (peers : List BtPeer) (peerId : Int) : Option BtPeer :=
  peers.find? fun p => p.id = peerId

/-- What the options leave in `bt_config_t`; the names are without the zero that ends them. -/
structure BtConfig where
  chunkFile : List UInt8
  hasChunkFile : List UInt8
  identity : Int

/-- `bt_parse_command_line` behind the options: the peers and `myport`. `none` where it exits or an
assertion fails. -/
def btParseCommandLine (gethostbyname : List UInt8 → Option UInt32) (v : NodeVars)
    (text : List UInt8) (config : BtConfig) : Option (List BtPeer × UInt16) :=
  (btParsePeerList gethostbyname v text).bind fun peers =>
    if config.identity = 0 then none
    else
      (btPeerInfo peers config.identity).bind fun p =>
        if config.chunkFile.length ≠ 0 ∧ config.hasChunkFile.length ≠ 0 then
          some (peers, p.addr.sinPort)
        else none

/-! ## Broadcasting -/

/-- `broadcast`: the datagrams and where they go. -/
def broadcast (pack : Packet) (peers : List BtPeer) (myid : Int) :
    Option (List (SockAddr × List UInt8)) :=
  (datagram pack).map fun d => (peers.filter fun p => p.id ≠ myid).map fun p => (p.addr, d)

/-- The `while` loop of `WhoHas_sender` with its broadcasts. -/
def whoHasBroadcastLoop (down : DownloadConn) (peers : List BtPeer) (myid : Int) :
    Nat → List HashChunk → Option (List (SockAddr × List UInt8))
  | _, [] => some []
  | 0, _ :: _ => none
  | fuel + 1, curr :: next =>
    let whohasPack := (formWhoHas (curr :: next) down).1
    let rest := whoHasBroadcastLoop down peers myid fuel (formWhoHas (curr :: next) down).2
    if whohasPack.chunkhashNum = 0 then rest
    else (broadcast whohasPack peers myid).bind fun ds => rest.map (ds ++ ·)

def whoHasBroadcast (needlist : List HashChunk) (down : DownloadConn) (peers : List BtPeer)
    (myid : Int) : Option (List (SockAddr × List UInt8)) :=
  whoHasBroadcastLoop down peers myid needlist.length needlist

/-! ## Files -/

/-- A line of the file that is meant for a peer. -/
structure NodeEntry where
  idDigits : List (Fin 10)
  hasId : idDigits ≠ []
  gap₁ : List UInt8
  host : List UInt8
  hasHost : host ≠ []
  gap₂ : List UInt8
  portDigits : List (Fin 10)
  hasPort : portDigits ≠ []
  hostPlain : ∀ c ∈ host, isspace c = false ∧ c ≠ 0
  gaps : ∀ gap ∈ [gap₁, gap₂], gap ≠ [] ∧ ∀ c ∈ gap, isspace c ∧ c ≠ newline

/-- Decimal digits as text. -/
def digitsText (digits : List (Fin 10)) : List UInt8 := digits.map fun d => 48 + UInt8.ofNat d.val

/-- The number that digits are, the first one the most significant. -/
def digitsNumber (digits : List (Fin 10)) : Nat := Nat.ofDigits 10 (digits.reverse.map Fin.val)

namespace NodeEntry

def text (e : NodeEntry) : List UInt8 :=
  digitsText e.idDigits ++ (e.gap₁ ++ (e.host ++ (e.gap₂ ++ digitsText e.portDigits)))

/-- The peer of the line, if its host has this address. -/
def peer (e : NodeEntry) (sinAddr : UInt32) : BtPeer :=
  ⟨toI16 (digitsNumber e.idDigits), ⟨sinAddr, UInt16.ofInt (digitsNumber e.portDigits)⟩⟩

end NodeEntry

inductive NodesLine
  /-- Anything behind a `#`. -/
  | comment (rest : List UInt8) (noEnd : newline ∉ rest)
  /-- Nothing but white space. -/
  | blank (spaces : List UInt8) (allSpace : ∀ c ∈ spaces, isspace c ∧ c ≠ newline)
  | entry (e : NodeEntry)

def NodesLine.text : NodesLine → List UInt8
  | .comment rest _ => 35 :: rest
  | .blank spaces _ => spaces
  | .entry e => e.text

/-- The lines that end, and one behind them that does not. -/
structure NodesFile where
  ended : List NodesLine
  last : Option NodesLine
  lastText : ∀ line ∈ last, line.text ≠ []

namespace NodesFile

def text (f : NodesFile) : List UInt8 :=
  f.ended.flatMap (fun line => line.text ++ [newline]) ++ (f.last.map NodesLine.text).getD []

def lines (f : NodesFile) : List NodesLine := f.ended ++ f.last.toList

end NodesFile

/-- The peers some lines make, the first one first, behind an entry `last`: a blank line makes the
peer of the entry above it once more. -/
def entriesRead : Option NodeEntry → List NodesLine → List NodeEntry
  | _, [] => []
  | last, .comment _ _ :: ls => entriesRead last ls
  | last, .blank _ _ :: ls => last.toList ++ entriesRead last ls
  | _, .entry e :: ls => e :: entriesRead (some e) ls

/-- No blank line comes before the first entry. -/
def BlanksBehind : List NodesLine → Prop
  | [] | .entry _ :: _ => True
  | .comment _ _ :: ls => BlanksBehind ls
  | .blank _ _ :: _ => False

/-! ## One line -/

variable {digits : List (Fin 10)} {gap rest : List UInt8} {c : UInt8}

theorem mem_digitsText (h : c ∈ digitsText digits) : isdigit c = true ∧ c ≠ 35 ∧ c ≠ 0 ∧
    c ≠ newline := by
  obtain ⟨d, -, rfl⟩ := List.mem_map.mp h
  exact digit_plain d

theorem digitsText_ne_nil (h : digits ≠ []) : digitsText digits ≠ [] :=
  fun hnil => h (List.map_eq_nil_iff.mp hnil)

theorem scanInt_digits (hd : digits ≠ []) (hgap : ∀ c ∈ gap, isspace c = true)
    (hrest : ∀ c ∈ rest.head?, isdigit c = false) :
    scanInt (gap ++ (digitsText digits ++ rest)) =
      if digitsNumber digits < 2 ^ 31 then .number (digitsNumber digits) rest else .overflow := by
  obtain ⟨d, number, hnumber⟩ := List.exists_cons_of_ne_nil (digitsText_ne_nil hd)
  have hall : ∀ c ∈ d :: number, isdigit c = true := fun c hc =>
    (mem_digitsText (hnumber ▸ hc)).1
  have hdigit : isdigit d = true := hall d List.mem_cons_self
  have hskip : (gap ++ (d :: number ++ rest)).dropWhile isspace = d :: number ++ rest :=
    dropWhile_gap hgap (List.cons_ne_nil d number) fun c hc => isspace_of_isdigit (hall c hc)
  have hstop : rest.takeWhile isdigit = [] ∧ rest.dropWhile isdigit = rest := by
    cases rest with
    | nil => exact ⟨rfl, rfl⟩
    | cons e rest =>
      have he : ¬ isdigit e = true := by simp [hrest e rfl]
      exact ⟨List.takeWhile_cons_of_neg he, List.dropWhile_cons_of_neg he⟩
  have hdigits : (d :: number ++ rest).takeWhile isdigit = d :: number := by
    rw [List.takeWhile_append_of_pos hall, hstop.1, List.append_nil]
  have hbehind : (d :: number ++ rest).dropWhile isdigit = rest := by
    rw [List.dropWhile_append_of_pos hall, hstop.2]
  have hvalue : digitsValue (d :: number) = digitsNumber digits := by
    rw [← hnumber, digitsText, digitsValue_map, digitsNumber]
  have hsign : scanSign (d :: number ++ rest) = (1, d :: number ++ rest) :=
    scanSign_of_isdigit hdigit _
  have hne : d :: number ++ rest ≠ [] := List.cons_ne_nil _ _
  simp only [scanInt, hnumber, hskip, if_neg hne, hsign, hdigits,
    if_neg (List.cons_ne_nil d number), hbehind, hvalue, one_mul]
  by_cases hv : digitsNumber digits < 2 ^ 31
  · rw [if_pos hv, if_neg (by omega)]
  · rw [if_neg hv, if_pos (by omega)]

namespace NodeEntry

variable (e : NodeEntry)

/-- Both numbers are `int`s. -/
def InRange : Prop := digitsNumber e.idDigits < 2 ^ 31 ∧ digitsNumber e.portDigits < 2 ^ 31

/-- What the line leaves in the variables. -/
def vars (peers : List BtPeer) : NodeVars where
  nodeid := digitsNumber e.idDigits
  hostname := e.host
  port := digitsNumber e.portDigits
  peers := peers

theorem text_plain (hc : c ∈ e.text) : c ≠ 0 ∧ c ≠ newline := by
  have hspace : ∀ c : UInt8, isspace c = true → c ≠ 0 := by
    rintro c hc rfl
    cases hc
  have hgap₁ := e.gaps e.gap₁ List.mem_cons_self
  have hgap₂ := e.gaps e.gap₂ (List.mem_cons_of_mem _ (List.mem_singleton.mpr rfl))
  rw [text, List.mem_append, List.mem_append, List.mem_append, List.mem_append] at hc
  rcases hc with hid | hgap | hhost | hgap | hport
  · exact (mem_digitsText hid).2.2
  · exact ⟨hspace c (hgap₁.2 c hgap).1, (hgap₁.2 c hgap).2⟩
  · obtain ⟨hno, hzero⟩ := e.hostPlain c hhost
    refine ⟨hzero, ?_⟩
    rintro rfl
    cases hno
  · exact ⟨hspace c (hgap₂.2 c hgap).1, (hgap₂.2 c hgap).2⟩
  · exact (mem_digitsText hport).2.2

theorem text_head (stop : List UInt8) : (e.text ++ stop).head? ≠ some 35 := by
  obtain ⟨d, number, hnumber⟩ := List.exists_cons_of_ne_nil (digitsText_ne_nil e.hasId)
  have hd := (mem_digitsText (hnumber ▸ List.mem_cons_self : d ∈ digitsText e.idDigits)).2.1
  rw [text, hnumber]
  simpa using hd

theorem scanNode_text (hr : e.InRange) (hlen : e.host.length < btFilenameLen) {stop : List UInt8}
    (hstop : ∀ c ∈ stop, isspace c = true) (v : NodeVars) :
    scanNode (e.text ++ stop) v = some (3, e.vars v.peers) := by
  have hgap₁ := e.gaps e.gap₁ List.mem_cons_self
  have hgap₂ := e.gaps e.gap₂ (List.mem_cons_of_mem _ (List.mem_singleton.mpr rfl))
  have hnodigit : ∀ {gap rest : List UInt8}, gap ≠ [] → (∀ c ∈ gap, isspace c = true) →
      ∀ c ∈ (gap ++ rest).head?, isdigit c = false ∧ isspace c = true := by
    intro gap rest hne hgap c hc
    obtain ⟨d, gap, rfl⟩ := List.exists_cons_of_ne_nil hne
    cases hc
    have hd := hgap c List.mem_cons_self
    refine ⟨?_, hd⟩
    by_contra hdigit
    rw [isspace_of_isdigit (by simpa using hdigit)] at hd
    cases hd
  have hid := @scanInt_digits e.idDigits []
    (e.gap₁ ++ (e.host ++ (e.gap₂ ++ (digitsText e.portDigits ++ stop)))) e.hasId (by simp)
    fun c hc => (hnodigit hgap₁.1 (fun c hc => (hgap₁.2 c hc).1) c hc).1
  have hword : scanWord isspace btFilenameLen
      (e.gap₁ ++ (e.host ++ (e.gap₂ ++ (digitsText e.portDigits ++ stop)))) =
        some (e.host, e.gap₂ ++ (digitsText e.portDigits ++ stop)) := by
    refine (scanWord_eq_some_iff (by decide)).mpr ⟨e.gap₁, rfl, fun c hc => (hgap₁.2 c hc).1, ?_⟩
    exact ⟨e.hasHost, fun c hc => (e.hostPlain c hc).1, hlen.le,
      fun _ c hc => (hnodigit hgap₂.1 (fun c hc => (hgap₂.2 c hc).1) c hc).2⟩
  have hport := @scanInt_digits e.portDigits e.gap₂ stop e.hasPort
    (fun c hc => (hgap₂.2 c hc).1) fun c hc => by
      have hspace := hstop c (List.mem_of_head? hc)
      by_contra hdigit
      rw [isspace_of_isdigit (by simpa using hdigit)] at hspace
      cases hspace
  rw [List.nil_append, if_pos hr.1] at hid
  rw [if_pos hr.2] at hport
  rw [text, scanNode]
  simp only [List.append_assoc, hid, hword, hport]
  rfl

end NodeEntry

section
variable {gethostbyname : List UInt8 → Option UInt32} {resolve : List UInt8 → UInt32}
  {e : NodeEntry} {sinAddr : UInt32} {stop : List UInt8}

theorem isspace_of_stop (h : stop = [] ∨ stop = [newline]) : ∀ c ∈ stop, isspace c = true := by
  intro c hc
  rcases h with rfl | rfl
  · cases hc
  · rw [List.mem_singleton.mp hc]
    rfl

theorem peerLine_entry (hr : e.InRange) (hlen : e.host.length < btFilenameLen)
    (hres : gethostbyname e.host = some sinAddr) (hstop : stop = [] ∨ stop = [newline])
    (v : NodeVars) : peerLine gethostbyname v (e.text ++ stop) =
      some (e.vars (e.peer sinAddr :: v.peers)) := by
  have hzero : 0 ∉ e.text ++ stop := by
    rw [List.mem_append]
    rintro (h | h)
    · exact (e.text_plain h).1 rfl
    · have := isspace_of_stop hstop 0 h
      cases this
  rw [peerLine, if_neg (e.text_head stop), cstr_append hzero,
    e.scanNode_text hr hlen (isspace_of_stop hstop), Option.bind_some]
  simp only [NodeEntry.vars, hres, Option.map_some]
  rfl

theorem peerLine_blank {spaces : List UInt8} (hspace : ∀ c ∈ spaces, isspace c = true)
    (hres : gethostbyname e.host = some sinAddr) (hstop : stop = [] ∨ stop = [newline])
    (peers : List BtPeer) : peerLine gethostbyname (e.vars peers) (spaces ++ stop) =
      some (e.vars (e.peer sinAddr :: peers)) := by
  have hall : ∀ c ∈ spaces ++ stop, isspace c = true := by
    intro c hc
    exact (List.mem_append.mp hc).elim (hspace c) (isspace_of_stop hstop c)
  have hzero : 0 ∉ spaces ++ stop := fun h => by
    have := hall 0 h
    cases this
  have hhead : (spaces ++ stop).head? ≠ some 35 := fun h => by
    have := hall 35 (List.mem_of_head? h)
    cases this
  have heof : scanInt (spaces ++ stop) = .eof := by
    rw [scanInt, List.dropWhile_eq_nil_iff.mpr hall]
    rfl
  rw [peerLine, if_neg hhead, cstr_append hzero, scanNode, heof, Option.bind_some]
  simp only [NodeEntry.vars, hres, Option.map_some]
  rfl

/-! ## The file -/

/-- The line fits into one piece, and its numbers are `int`s. -/
def NodesLine.Readable (line : NodesLine) : Prop :=
  line.text.length < btFilenameLen - 1 ∧ ∀ e, line = .entry e → e.InRange

theorem NodesLine.newline_not_mem (line : NodesLine) : newline ∉ line.text := by
  cases line with
  | comment rest noEnd =>
    rw [text, List.mem_cons]
    exact not_or.mpr ⟨by decide, noEnd⟩
  | blank spaces allSpace => exact fun h => (allSpace newline h).2 rfl
  | entry e => exact fun h => (e.text_plain h).2 rfl

/-- The peers that the entries read make, if their hosts have these addresses. -/
def peersOf (resolve : List UInt8 → UInt32) (es : List NodeEntry) : List BtPeer :=
  (es.map fun e => e.peer (resolve e.host)).reverse

theorem peersOf_append (resolve : List UInt8 → UInt32) (es es' : List NodeEntry) :
    peersOf resolve (es ++ es') = peersOf resolve es' ++ peersOf resolve es := by
  rw [peersOf, List.map_append, List.reverse_append, peersOf, peersOf]

/-- The variables hold what the entry above has left there. -/
def LeftBy (last : Option NodeEntry) (v : NodeVars) : Prop :=
  ∀ e, last = some e → v = e.vars v.peers

theorem exec_nodesLines (ls : List (NodesLine × List UInt8))
    (hls : ∀ l ∈ ls, l.1.Readable ∧ (l.2 = [] ∨ l.2 = [newline])) :
    ∀ (last : Option NodeEntry) (v : NodeVars), LeftBy last v →
      (last = none → BlanksBehind (ls.map Prod.fst)) →
      (∀ e, last = some e ∨ .entry e ∈ ls.map Prod.fst →
        gethostbyname e.host = some (resolve e.host)) →
      ∃ v', exec (peerLine gethostbyname) v (ls.map fun l => l.1.text ++ l.2) = some v' ∧
        v'.peers = peersOf resolve (entriesRead last (ls.map Prod.fst)) ++ v.peers := by
  induction ls with
  | nil => exact fun last v _ _ _ => ⟨v, rfl, rfl⟩
  | cons l ls ih =>
    intro last v hleft hbegin hres
    rw [List.forall_mem_cons] at hls
    obtain ⟨⟨hread, hstop⟩, hls⟩ := hls
    obtain ⟨line, stop⟩ := l
    have hres' : ∀ e, .entry e ∈ ls.map Prod.fst → gethostbyname e.host = some (resolve e.host) :=
      fun e he => hres e (.inr (List.mem_cons_of_mem _ he))
    cases line with
    | comment rest noEnd =>
      have hskip : peerLine gethostbyname v (35 :: rest ++ stop) = some v := if_pos rfl
      obtain ⟨v', hrun, hpeers⟩ := ih hls last v hleft hbegin
        fun e he => he.elim (fun h => hres e (.inl h)) (hres' e)
      exact ⟨v', (exec_step hskip _).trans hrun, hpeers⟩
    | blank spaces allSpace =>
      cases last with
      | none => exact (hbegin rfl).elim
      | some e =>
        have hhost := hres e (.inl rfl)
        have hstep := peerLine_blank (fun c hc => (allSpace c hc).1) hhost hstop v.peers
        rw [← hleft e rfl] at hstep
        obtain ⟨v', hrun, hpeers⟩ := ih hls (some e) (e.vars (e.peer (resolve e.host) :: v.peers))
          (fun e' he' => by cases he'; rfl) (fun h => by cases h)
          fun e' he' => he'.elim (fun h => hres e' (.inl h)) (hres' e')
        refine ⟨v', (exec_step hstep _).trans hrun, hpeers.trans ?_⟩
        have hcons : entriesRead (some e) (.blank spaces allSpace :: ls.map Prod.fst) =
            [e] ++ entriesRead (some e) (ls.map Prod.fst) := rfl
        rw [List.map_cons, hcons, peersOf_append, List.append_assoc]
        rfl
    | entry e =>
      have hhost := hres e (.inr List.mem_cons_self)
      have hlen : e.host.length < btFilenameLen := by
        have hshort := hread.1
        simp only [NodesLine.text, NodeEntry.text, List.length_append] at hshort
        omega
      have hstep := peerLine_entry (hread.2 e rfl) hlen hhost hstop v
      obtain ⟨v', hrun, hpeers⟩ := ih hls (some e) (e.vars (e.peer (resolve e.host) :: v.peers))
        (fun e' he' => by cases he'; rfl) (fun h => by cases h)
        fun e' he' => he'.elim (fun h => by cases h; exact hhost) (hres' e')
      refine ⟨v', (exec_step hstep _).trans hrun, hpeers.trans ?_⟩
      have hcons : entriesRead last (.entry e :: ls.map Prod.fst) =
          [e] ++ entriesRead (some e) (ls.map Prod.fst) := rfl
      rw [List.map_cons, hcons, peersOf_append, List.append_assoc]
      rfl

namespace NodesFile

variable (f : NodesFile)

/-- The lines, each with what ends it. -/
def lineTexts : List (NodesLine × List UInt8) :=
  f.ended.map (fun line => (line, [newline])) ++ f.last.toList.map fun line => (line, [])

/-- All lines can be read, and no blank line comes before the first entry. -/
structure Readable : Prop where
  lines : ∀ line ∈ f.lines, line.Readable
  blanks : BlanksBehind f.lines

theorem map_fst_lineTexts : f.lineTexts.map Prod.fst = f.lines := by
  rw [lineTexts, List.map_append, List.map_map, List.map_map]
  exact congrArg₂ (· ++ ·) (List.map_id _) (List.map_id _)

theorem textPieces_text (hf : ∀ line ∈ f.lines, line.Readable) :
    textPieces newline (btFilenameLen - 1) f.text = f.lineTexts.map fun l => l.1.text ++ l.2 := by
  have hlines : ∀ line ∈ f.ended, pieces (btFilenameLen - 1) (line.text ++ [newline]) =
      [line.text ++ [newline]] := by
    intro line hline
    have hshort := (hf line (List.mem_append_left _ hline)).1
    refine pieces_of_length_le (by simp) ?_
    rw [List.length_append, List.length_singleton]
    omega
  have hended : f.ended.flatMap (fun line => pieces (btFilenameLen - 1) (line.text ++ [newline])) =
      f.ended.map fun line => line.text ++ [newline] := by
    rw [List.flatMap_congr hlines, List.map_eq_flatMap]
  have hlast : pieces (btFilenameLen - 1) ((f.last.map NodesLine.text).getD []) =
      f.last.toList.map NodesLine.text := by
    cases hl : f.last with
    | none => exact pieces_nil
    | some line =>
      have hmem : line ∈ f.lines := List.mem_append_right _ (by rw [hl]; exact List.mem_cons_self)
      exact pieces_of_length_le (f.lastText line hl) (hf line hmem).1.le
  have hno : newline ∉ (f.last.map NodesLine.text).getD [] := by
    cases f.last with
    | none => exact List.not_mem_nil
    | some line => exact line.newline_not_mem
  rw [text, textPieces_lines (fun line _ => line.newline_not_mem) hno, hended, hlast, lineTexts,
    List.map_append, List.map_map, List.map_map]
  refine congrArg₂ (· ++ ·) rfl (List.map_congr_left fun line _ => ?_)
  exact (List.append_nil _).symm

/-- **A readable file** makes the peers of its entries, the last line first. -/
theorem Readable.parse {f : NodesFile} (h : f.Readable) (v : NodeVars)
    (hres : ∀ e, .entry e ∈ f.lines → gethostbyname e.host = some (resolve e.host)) :
    btParsePeerList gethostbyname v f.text = some (peersOf resolve (entriesRead none f.lines)) := by
  have hread : ∀ l ∈ f.lineTexts, l.1.Readable ∧ (l.2 = [] ∨ l.2 = [newline]) := by
    intro l hl
    rcases List.mem_append.mp hl with hl | hl
    · obtain ⟨line, hline, rfl⟩ := List.mem_map.mp hl
      exact ⟨h.lines line (List.mem_append_left _ hline), .inr rfl⟩
    · obtain ⟨line, hline, rfl⟩ := List.mem_map.mp hl
      exact ⟨h.lines line (List.mem_append_right _ hline), .inl rfl⟩
  obtain ⟨v', hrun, hpeers⟩ := exec_nodesLines f.lineTexts hread none { v with peers := [] }
    (fun _ he => by cases he) (fun _ => f.map_fst_lineTexts ▸ h.blanks)
    fun e he => he.elim (fun he => by cases he) fun he => hres e (f.map_fst_lineTexts ▸ he)
  rw [f.map_fst_lineTexts, List.append_nil] at hpeers
  rw [btParsePeerList, readLoop_eq _ (by decide) _ _ _ (Nat.lt_succ_self _),
    f.textPieces_text h.lines, hrun, Option.map_some, hpeers]

end NodesFile

end

/-! ## Who is asked -/

/-- A datagram for each peer but the one with the number. -/
def toOthers (peers : List BtPeer) (myid : Int) (d : List UInt8) : List (SockAddr × List UInt8) :=
  (peers.filter fun p => p.id ≠ myid).map fun p => (p.addr, d)

/-- **The loop of `WhoHas_sender`** broadcasts its packets one after the other. -/
theorem whoHasBroadcastLoop_spec (down : DownloadConn) (peers : List BtPeer) (myid : Int)
    (fuel : Nat) : ∀ list : List HashChunk, list.length ≤ fuel →
      ∃ (packs : List Packet) (ds : List (List UInt8)),
      whoHasSendLoop down fuel list = some packs ∧ (∀ p ∈ packs, OfHashes p) ∧
      packs.map datagram = ds.map some ∧
      whoHasBroadcastLoop down peers myid fuel list = some (ds.flatMap (toOthers peers myid)) := by
  induction fuel with
  | zero =>
    intro list h
    obtain rfl := List.length_eq_zero_iff.mp (Nat.le_zero.mp h)
    exact ⟨[], [], rfl, by simp, rfl, rfl⟩
  | succ fuel ih =>
    intro list h
    cases list with
    | nil => exact ⟨[], [], rfl, by simp, rfl, rfl⟩
    | cons curr next =>
      have hrest := whoHasLoop_progress down curr next
      rw [List.length_cons] at h
      obtain ⟨packs, ds, hsend, hof, hds, hrun⟩ := ih (formWhoHas (curr :: next) down).2
        (hrest.trans (by omega))
      have hfirst := ofHashes_whoHas (curr :: next) down
      obtain ⟨d, hd, -⟩ := hfirst.arrives.exists_datagram
      have hpack : sendPack (formWhoHas (curr :: next) down).1 =
          some (formWhoHas (curr :: next) down).1 := by
        rw [sendPack_eq hfirst.arrives.serialisable, hfirst.arrives.onWire]
      simp only [whoHasSendLoop, whoHasBroadcastLoop, hsend, hrun]
      split
      · exact ⟨packs, ds, rfl, hof, hds, rfl⟩
      · refine ⟨(formWhoHas (curr :: next) down).1 :: packs, d :: ds, ?_, ?_, ?_, ?_⟩
        · rw [hpack, Option.bind_some, Option.map_some]
        · exact List.forall_mem_cons.mpr ⟨hfirst, hof⟩
        · rw [List.map_cons, List.map_cons, hd, hds]
        · rw [broadcast, hd, Option.map_some, Option.bind_some, Option.map_some, List.flatMap_cons]
          rfl

/-- The entry has the number. -/
def NodeEntry.Has (e : NodeEntry) (id : Int) : Bool := toI16 (digitsNumber e.idDigits) = id

theorem filter_peersOf (resolve : List UInt8 → UInt32) (es : List NodeEntry)
    (test : BtPeer → Bool) : (peersOf resolve es).filter test =
      peersOf resolve (es.filter fun e => test (e.peer (resolve e.host))) := by
  rw [peersOf, List.filter_reverse, List.filter_map, peersOf]
  rfl

theorem btPeerInfo_peersOf (resolve : List UInt8 → UInt32) (es : List NodeEntry) (id : Int) :
    btPeerInfo (peersOf resolve es) id =
      (es.filter fun e => e.Has id).getLast?.map fun e => e.peer (resolve e.host) := by
  have htest : ∀ e ∈ es, decide ((e.peer (resolve e.host)).id = id) = e.Has id := fun e _ => by
    rw [NodeEntry.peer, NodeEntry.Has]
  rw [btPeerInfo, ← List.head?_filter, filter_peersOf, List.filter_congr htest, peersOf,
    List.head?_reverse, List.getLast?_map]

theorem toOthers_peersOf (resolve : List UInt8 → UInt32) (es : List NodeEntry) (myid : Int)
    (d : List UInt8) : toOthers (peersOf resolve es) myid d =
      (es.filter fun e => !e.Has myid).reverse.map fun e =>
        ((e.peer (resolve e.host)).addr, d) := by
  have htest : ∀ e ∈ es, decide ((e.peer (resolve e.host)).id ≠ myid) = !e.Has myid :=
    fun e _ => by rw [NodeEntry.peer, NodeEntry.Has, decide_not]
  rw [toOthers, filter_peersOf, List.filter_congr htest, peersOf, ← List.map_reverse, List.map_map]
  rfl

theorem started_eq {α : Type} (config : BtConfig) (resolve : List UInt8 → UInt32) (peers : α)
    (own : Option NodeEntry) :
    (if config.identity = 0 then none
      else (own.map fun e => e.peer (resolve e.host)).bind fun p =>
        if config.chunkFile.length ≠ 0 ∧ config.hasChunkFile.length ≠ 0 then
          some (peers, p.addr.sinPort)
        else none) =
      if config.identity ≠ 0 ∧ config.chunkFile ≠ [] ∧ config.hasChunkFile ≠ [] then
        own.map fun e => (peers, UInt16.ofInt (digitsNumber e.portDigits))
      else none := by
  have hnames : (config.chunkFile.length ≠ 0 ∧ config.hasChunkFile.length ≠ 0) ↔
      config.chunkFile ≠ [] ∧ config.hasChunkFile ≠ [] :=
    and_congr List.length_eq_zero_iff.not List.length_eq_zero_iff.not
  by_cases hid : config.identity = 0
  · rw [if_pos hid, if_neg fun h => h.1 hid]
  · rw [if_neg hid]
    cases own with
    | none => simp
    | some e =>
      rw [Option.map_some, Option.bind_some, Option.map_some, NodeEntry.peer]
      exact if_congr (by rw [hnames, and_iff_right hid]) rfl rfl

/-- **Who is asked.** A readable list of peers, in which each host has an address, is read; the peer
starts if its own number is in it and not 0 and both its chunk files have names, with the port of
the last line that has the number. For any needlist the packets of `WhoHas_sender` then go, one
after the other, to each line's peer that has another number, the last line first, and a blank line
repeats the one above it; they arrive as they were built. -/
theorem nodes_asked {f : NodesFile} (hf : f.Readable) {gethostbyname : List UInt8 → Option UInt32}
    {resolve : List UInt8 → UInt32}
    (hres : ∀ e, .entry e ∈ f.lines → gethostbyname e.host = some (resolve e.host)) (v : NodeVars)
    (needlist : List HashChunk) (down : DownloadConn) (config : BtConfig) :
    ∃ (peers : List BtPeer) (packs : List Packet) (ds : List (List UInt8)),
      btParsePeerList gethostbyname v f.text = some peers ∧
      btParseCommandLine gethostbyname v f.text config =
        (if config.identity ≠ 0 ∧ config.chunkFile ≠ [] ∧ config.hasChunkFile ≠ [] then
          ((entriesRead none f.lines).filter fun e => e.Has config.identity).getLast?.map fun e =>
            (peers, UInt16.ofInt (digitsNumber e.portDigits))
        else none) ∧
      whoHasSender needlist down = some packs ∧
      whoHasBroadcast needlist down peers config.identity = some (ds.flatMap fun d =>
        ((entriesRead none f.lines).filter fun e => !e.Has config.identity).reverse.map fun e =>
          (⟨resolve e.host, UInt16.ofInt (digitsNumber e.portDigits)⟩, d)) ∧
      packs.map datagram = ds.map some ∧
      ds.map (fun d => binary2packet (d ++ [0])) = packs.map some := by
  have hparse := hf.parse v hres
  obtain ⟨packs, ds, hsend, hof, hds, hrun⟩ := whoHasBroadcastLoop_spec down
    (peersOf resolve (entriesRead none f.lines)) config.identity needlist.length needlist
    (le_refl _)
  obtain ⟨ds', hds', -, -, -, hdec⟩ := exists_datagrams fun p hp => (hof p hp).arrives
  obtain rfl : ds = ds' := List.map_injective_iff.mpr (Option.some_injective _)
    (hds.symm.trans hds')
  refine ⟨_, packs, ds, hparse, ?_, hsend, hrun.trans ?_, hds, hdec⟩
  · rw [btParseCommandLine, hparse, Option.bind_some, btPeerInfo_peersOf]
    exact started_eq config resolve _ _
  · refine congrArg (fun g => some (ds.flatMap g)) (funext fun d => ?_)
    exact toOthers_peersOf resolve _ config.identity d

/-- The host `a`. -/
def hostA : List UInt8 := [97]

/-- One space. -/
def oneGap : List UInt8 := [32]

theorem hostA_plain : ∀ c ∈ hostA, isspace c = false ∧ c ≠ 0 := by
  intro c hc
  rw [List.mem_singleton.mp hc]
  decide

theorem oneGap_blank : ∀ gap ∈ [oneGap, oneGap], gap ≠ [] ∧ ∀ c ∈ gap, isspace c ∧ c ≠ newline := by
  intro gap hgap
  have hblank : gap = [32] := by simpa [oneGap] using hgap
  rw [hblank]
  refine ⟨List.cons_ne_nil 32 [], fun c hc => ?_⟩
  rw [List.mem_singleton.mp hc]
  decide

theorem mod_ten_lt (n : Nat) : n % 10 < 10 := Nat.mod_lt n (by decide)

/-- The last digit of a number. -/
def lastDigit (n : Nat) : Fin 10 := ⟨n % 10, mod_ten_lt n⟩

/-- The line of a peer on the host `a`. -/
def lineOfA (id port : Nat) : NodeEntry where
  idDigits := [lastDigit id]
  hasId := List.cons_ne_nil (lastDigit id) []
  gap₁ := oneGap
  host := hostA
  hasHost := List.cons_ne_nil 97 []
  gap₂ := oneGap
  portDigits := [lastDigit port]
  hasPort := List.cons_ne_nil (lastDigit port) []
  hostPlain := hostA_plain
  gaps := oneGap_blank

/-- Two peers, and a blank line below. -/
def twoNodes (id₁ port₁ id₂ port₂ : Nat) : NodesFile where
  ended := [.comment [] List.not_mem_nil, .entry (lineOfA id₁ port₁), .entry (lineOfA id₂ port₂),
    .blank [] (fun _ h => absurd h List.not_mem_nil)]
  last := none
  lastText := fun _ h => absurd h (Option.not_mem_none _)

/-- Peer 1 on port 5 asks peer 2 on port 6, above a blank line, twice. -/
theorem nodes_asked_twoNodes :
    ∃ (peers : List BtPeer) (packs : List Packet) (ds : List (List UInt8)),
      btParsePeerList (fun _ => some 7) ⟨0, [], 0, []⟩ (twoNodes 1 5 2 6).text = some peers ∧
      btParseCommandLine (fun _ => some 7) ⟨0, [], 0, []⟩ (twoNodes 1 5 2 6).text
        ⟨[102], [99], 1⟩ = some (peers, 5) ∧
      whoHasSender [createNode ⟨7, 5⟩ (Vector.replicate hashSize 0) 0]
          (initDownloadConn ⟨4, ⟨7, 5⟩⟩) = some packs ∧
      whoHasBroadcast [createNode ⟨7, 5⟩ (Vector.replicate hashSize 0) 0]
          (initDownloadConn ⟨4, ⟨7, 5⟩⟩) peers 1 =
        some (ds.flatMap fun d => [(⟨7, 6⟩, d), (⟨7, 6⟩, d)]) ∧
      packs.map datagram = ds.map some ∧
      ds.map (fun d => binary2packet (d ++ [0])) = packs.map some := by
  have hread : (twoNodes 1 5 2 6).Readable := by
    refine ⟨List.forall_mem_cons.mpr ⟨⟨by decide, fun e heq => ?_⟩, List.forall_mem_cons.mpr
      ⟨⟨by decide, fun e heq => ?_⟩, List.forall_mem_cons.mpr ⟨⟨by decide, fun e heq => ?_⟩,
      List.forall_mem_cons.mpr ⟨⟨by decide, fun e heq => ?_⟩, by simp [twoNodes]⟩⟩⟩⟩, trivial⟩
    all_goals cases heq
    all_goals exact ⟨by decide, by decide⟩
  exact @nodes_asked (twoNodes 1 5 2 6) hread (fun _ => some 7) (fun _ => 7) (fun _ _ => rfl)
    ⟨0, [], 0, []⟩ [createNode ⟨7, 5⟩ (Vector.replicate hashSize 0) 0]
    (initDownloadConn ⟨4, ⟨7, 5⟩⟩) ⟨[102], [99], 1⟩

end P2P
