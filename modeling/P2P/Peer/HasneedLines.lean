import Mathlib.Data.Nat.Digits.Lemmas
import P2P.Peer.HasneedFile

/-!
# The lines of a chunk file

What a chunk file says: its lines are comments, blank lines and entries, each an identifier and a
hash. What `parse_hasneed_list` makes of them depends on the pieces they come in: everything that
does not start with a `#` becomes a node.

`only_entries_iff`: which files become the list of their entries.
-/

namespace P2P

open Lib

/-! ## What a file says -/

/-- A hexadecimal digit as it is written. -/
structure HexDigit where
  value : Fin 16
  upper : Bool
  deriving DecidableEq

namespace HexDigit

def char (d : HexDigit) : UInt8 :=
  if d.value.val < 10 then 48 + UInt8.ofNat d.value.val
  else if d.upper then 55 + UInt8.ofNat d.value.val
  else 87 + UInt8.ofNat d.value.val

end HexDigit

/-- A line `<decimal id> <40 hex digits>`. -/
structure EntryLine where
  digits : List (Fin 10)
  hasDigit : digits ≠ []
  /-- Two digits for each byte of the hash. -/
  hex : Vector (HexDigit × HexDigit) hashSize

namespace EntryLine

def id (e : EntryLine) : Nat := Nat.ofDigits 10 (e.digits.reverse.map Fin.val)

def hash (e : EntryLine) : Hash :=
  e.hex.map fun (hi, lo) => UInt8.ofNat (16 * hi.value.val + lo.value.val)

def idText (e : EntryLine) : List UInt8 := e.digits.map fun d => 48 + UInt8.ofNat d.val

def hashText (e : EntryLine) : List UInt8 := e.hex.toList.flatMap fun (hi, lo) => [hi.char, lo.char]

def text (e : EntryLine) : List UInt8 := e.idText ++ 32 :: e.hashText

end EntryLine

/-- A line of a chunk file, without its end. -/
inductive FileLine where
  /-- Anything behind a `#`. -/
  | comment (rest : List UInt8) (noEnd : newline ∉ rest)
  /-- Nothing but white space. -/
  | blank (spaces : List UInt8) (allSpace : ∀ c ∈ spaces, isspace c ∧ c ≠ newline)
  | entry (e : EntryLine)

namespace FileLine

def text : FileLine → List UInt8
  | comment rest _ => 35 :: rest
  | blank spaces _ => spaces
  | entry e => e.text

def asEntry : FileLine → Option (Int × Hash)
  | entry e => some (e.id, e.hash)
  | _ => none

end FileLine

/-- A chunk file: the lines that end, and one behind them that does not. -/
structure ChunkListFile where
  ended : List FileLine
  last : Option FileLine
  lastText : ∀ line ∈ last, line.text ≠ []

namespace ChunkListFile

def text (f : ChunkListFile) : List UInt8 :=
  f.ended.flatMap (fun line => line.text ++ [newline]) ++ (f.last.map FileLine.text).getD []

/-- Each line with what ends it. -/
def lineTexts (f : ChunkListFile) : List (FileLine × List UInt8) :=
  f.ended.map (fun line => (line, line.text ++ [newline])) ++
    f.last.toList.map fun line => (line, line.text)

/-- The entries, the first one first. -/
def entries (f : ChunkListFile) : List (Int × Hash) :=
  (f.ended ++ f.last.toList).filterMap FileLine.asEntry

end ChunkListFile

/-! ## Entries -/

namespace HexDigit

theorem hexChar2binary_char (d : HexDigit) : hexChar2binary d.char = UInt8.ofNat d.value.val := by
  obtain ⟨v, u⟩ := d
  revert v u
  decide

theorem char_plain (d : HexDigit) :
    isspace d.char = false ∧ d.char ≠ 35 ∧ d.char ≠ 0 ∧ d.char ≠ newline := by
  obtain ⟨v, u⟩ := d
  revert v u
  decide

theorem shift_or (hi lo : Fin 16) :
    UInt8.ofNat hi.val <<< 4 ||| UInt8.ofNat lo.val = UInt8.ofNat (16 * hi.val + lo.val) := by
  revert hi lo
  decide

end HexDigit

theorem hex2binary_flatMap (hex : List (HexDigit × HexDigit)) :
    hex2binary (hex.flatMap fun (hi, lo) => [hi.char, lo.char]) =
      hex.map fun (hi, lo) => UInt8.ofNat (16 * hi.value.val + lo.value.val) := by
  induction hex with
  | nil => rfl
  | cons d hex ih =>
    obtain ⟨hi, lo⟩ := d
    rw [List.flatMap_cons, List.map_cons, ← ih]
    simp only [List.cons_append, List.nil_append, hex2binary, HexDigit.hexChar2binary_char,
      HexDigit.shift_or]

theorem digit_plain (d : Fin 10) : isdigit (48 + UInt8.ofNat d.val) = true ∧
    48 + UInt8.ofNat d.val ≠ 35 ∧ 48 + UInt8.ofNat d.val ≠ 0 ∧
    48 + UInt8.ofNat d.val ≠ newline := by
  revert d
  decide

theorem digit_value (d : Fin 10) : (48 + UInt8.ofNat d.val).toNat - 48 = d := by
  revert d
  decide

theorem digitsValue_map (digits : List (Fin 10)) :
    digitsValue (digits.map fun d => 48 + UInt8.ofNat d.val) =
      Nat.ofDigits 10 (digits.reverse.map Fin.val) := by
  -- the fold goes on from the value of the digits before
  have hfold : ∀ v, (digits.map fun d => 48 + UInt8.ofNat d.val).foldl
      (fun v c => 10 * v + (c.toNat - 48)) v =
        Nat.ofDigits 10 (digits.reverse.map Fin.val) + 10 ^ digits.length * v := by
    induction digits with
    | nil =>
      intro v
      simp
    | cons d digits ih =>
      intro v
      rw [List.map_cons, List.foldl_cons, ih, digit_value, List.reverse_cons, List.map_append,
        Nat.ofDigits_append, List.length_map, List.length_reverse, List.length_cons, pow_succ]
      simp only [List.map_cons, List.map_nil, Nat.ofDigits_singleton]
      ring
  rw [digitsValue, hfold, Nat.mul_zero, Nat.add_zero]

namespace EntryLine

variable (e : EntryLine)

theorem length_hashText : e.hashText.length = 40 := by
  have hpair : ∀ hex : List (HexDigit × HexDigit),
      (hex.flatMap fun (hi, lo) => [hi.char, lo.char]).length = 2 * hex.length := by
    intro hex
    induction hex with
    | nil => rfl
    | cons d hex ih =>
      rw [List.flatMap_cons, List.length_append, ih, List.length_cons]
      simp only [List.length_cons, List.length_nil]
      omega
  rw [hashText, hpair, Vector.length_toList]
  rfl

variable {e} {c : UInt8}

theorem mem_idText (hc : c ∈ e.idText) :
    isdigit c = true ∧ c ≠ 35 ∧ c ≠ 0 ∧ c ≠ newline := by
  obtain ⟨d, -, rfl⟩ := List.mem_map.mp hc
  exact digit_plain d

theorem mem_hashText (hc : c ∈ e.hashText) :
    isspace c = false ∧ c ≠ 35 ∧ c ≠ 0 ∧ c ≠ newline := by
  obtain ⟨⟨hi, lo⟩, -, hc⟩ := List.mem_flatMap.mp hc
  rcases List.mem_pair.mp hc with rfl | rfl
  · exact hi.char_plain
  · exact lo.char_plain

theorem text_plain (hc : c ∈ e.text) : c ≠ 35 ∧ c ≠ 0 ∧ c ≠ newline := by
  rw [text, List.mem_append, List.mem_cons] at hc
  rcases hc with hid | rfl | hhash
  · exact (mem_idText hid).2
  · decide
  · exact (mem_hashText hhash).2

variable (e)

theorem sscanf_text {stop : List UInt8} (hstop : ∀ c ∈ stop, isspace c) (chunkid : Int) :
    sscanf (e.text ++ stop) chunkid =
      if e.id < 2 ^ 31 then some ⟨2, e.id, e.hashText⟩ else none := by
  have hid : ∀ c ∈ e.idText, isdigit c = true := fun c hc => (mem_idText hc).1
  have hidne : e.idText ≠ [] := fun h => e.hasDigit (List.map_eq_nil_iff.mp h)
  have hhash : ∀ c ∈ e.hashText, isspace c = false := fun c hc => (mem_hashText hc).1
  have hlen := e.length_hashText
  have hhashne : e.hashText ≠ [] := fun h => by
    rw [h, List.length_nil] at hlen
    cases hlen
  have hscan := sscanf_number_word hid hidne hhash hhashne (by omega) hstop chunkid
  rw [idText, digitsValue_map] at hscan
  rw [text, List.append_assoc, List.cons_append]
  exact hscan

theorem ofBytes_hashText (zeros : List UInt8) :
    Hash.ofBytes (hex2binary ((e.hashText ++ zeros).take 40)) = some e.hash := by
  rw [← e.length_hashText, List.take_left, hashText, hex2binary_flatMap, ← Vector.toList_map]
  exact Hash.ofBytes_toList e.hash

theorem hasneedLine_text (myaddr : SockAddr) (s : Hasneed) {stop : List UInt8}
    (hstop : stop = [] ∨ stop = [newline]) : hasneedLine myaddr s (e.text ++ stop) =
      if e.id < 2 ^ 31 then some ⟨e.id, createNode myaddr e.hash e.id :: s.list⟩ else none := by
  have hplain : ∀ c ∈ e.text ++ stop, c ≠ 35 ∧ c ≠ 0 := by
    intro c hc
    rcases List.mem_append.mp hc with hc | hc
    · exact ⟨(text_plain hc).1, (text_plain hc).2.1⟩
    · rcases hstop with rfl | rfl
      · cases hc
      · rw [List.mem_singleton.mp hc]
        decide
  have hhead : (e.text ++ stop).head? ≠ some 35 := fun h => (hplain 35 (List.mem_of_head? h)).1 rfl
  have hspace : ∀ c ∈ stop, isspace c = true := by
    intro c hc
    rcases hstop with rfl | rfl
    · cases hc
    · rw [List.mem_singleton.mp hc]
      rfl
  rw [hasneedLine, if_neg hhead, cstr_append fun h => (hplain 0 h).2 rfl, e.sscanf_text hspace]
  by_cases hid : e.id < 2 ^ 31
  · rw [if_pos hid, if_pos hid, Option.bind_some, if_neg (show (2 : Int) ≠ 0 by decide)]
    simp only [e.ofBytes_hashText, Option.map_some]
    rfl
  · rw [if_neg hid, if_neg hid, Option.bind_none]

end EntryLine

/-! ## Lines -/

/-- The room `fgets` has in `line`. -/
abbrev fgetsRoom : Nat := btFilenameLen - 1

namespace FileLine

/-- A line, with what ends it, that `parse_hasneed_list` reads as it is meant: a comment whose
pieces all look like comments, or an entry that comes in one piece and has an `int` as identifier.
No blank line is. -/
def Readable : FileLine → List UInt8 → Prop
  | comment _ _, bytes => ∀ piece ∈ pieces fgetsRoom bytes, piece.head? = some 35
  | blank _ _, _ => False
  | entry e, bytes => bytes.length ≤ fgetsRoom ∧ e.id < 2 ^ 31

/-- What ends a line: a newline, or nothing where the file ends behind it. -/
def Ends (line : FileLine) (bytes : List UInt8) : Prop :=
  ∃ stop, bytes = line.text ++ stop ∧ (stop = [] ∧ line.text ≠ [] ∨ stop = [newline])

variable {myaddr : SockAddr} {s t : Hasneed} {line : FileLine} {bytes : List UInt8}

theorem newline_not_mem (line : FileLine) : newline ∉ line.text := by
  cases line with
  | comment rest noEnd => exact fun h => (List.mem_cons.mp h).elim (by decide) noEnd
  | blank spaces allSpace => exact fun h => (allSpace newline h).2 rfl
  | entry e => exact fun h => (EntryLine.text_plain h).2.2 rfl

theorem Ends.ne_nil (hends : line.Ends bytes) : bytes ≠ [] := by
  obtain ⟨stop, rfl, ⟨rfl, hne⟩ | rfl⟩ := hends
  · rwa [List.append_nil]
  · simp

/-- Every piece of a line without a `#` creates a node. -/
theorem Ends.countP_pieces (hends : line.Ends bytes) (h : 35 ∉ line.text) :
    (pieces fgetsRoom bytes).countP (fun p => !isComment p) = (pieces fgetsRoom bytes).length := by
  have hno : 35 ∉ bytes := by
    obtain ⟨stop, rfl, hstop⟩ := hends
    rw [List.mem_append, not_or]
    refine ⟨h, ?_⟩
    rcases hstop with ⟨rfl, -⟩ | rfl <;> decide
  rw [List.countP_eq_length]
  intro piece hpiece
  have hsub := (mem_pieces (by decide) hpiece).2
  have hhead : piece.head? ≠ some 35 := fun hc => hno (hsub (List.mem_of_head? hc))
  rw [isComment, decide_eq_false hhead]
  rfl

theorem length_pieces_pos (h : bytes ≠ []) : 0 < (pieces fgetsRoom bytes).length := by
  rw [pieces_cons (by decide) h]
  exact Nat.succ_pos _

/-- **A line** creates at least as many nodes as it has entries, and no more only if it is read as
it is meant. -/
theorem Ends.grows (hends : line.Ends bytes)
    (h : exec (hasneedLine myaddr) s (pieces fgetsRoom bytes) = some t) :
    s.list.length + line.asEntry.toList.length ≤ t.list.length ∧
      (t.list.length ≤ s.list.length + line.asEntry.toList.length → line.Readable bytes) := by
  have hlen := exec_length h
  have hne := hends.ne_nil
  have hpos := length_pieces_pos hne
  cases line with
  | comment rest noEnd =>
    refine ⟨by simp [asEntry, hlen], fun hle piece hpiece => ?_⟩
    have hzero : (pieces fgetsRoom bytes).countP (fun p => !isComment p) = 0 := by
      simp only [asEntry, Option.toList_none, List.length_nil] at hle
      omega
    have := List.countP_eq_zero.mp hzero piece hpiece
    simpa [isComment] using this
  | blank spaces allSpace =>
    rw [hends.countP_pieces fun h => absurd (allSpace 35 h).1 (by decide)] at hlen
    simp only [asEntry, Option.toList_none, List.length_nil]
    exact ⟨by omega, fun hle => by omega⟩
  | entry e =>
    rw [hends.countP_pieces fun h => (EntryLine.text_plain h).1 rfl] at hlen
    simp only [asEntry, Option.toList_some, List.length_singleton]
    refine ⟨by omega, fun hle => ?_⟩
    have hfits : bytes.length ≤ fgetsRoom := length_le_of_pieces (by decide) (by omega)
    refine ⟨hfits, ?_⟩
    -- it comes in one piece, which `sscanf` has to understand
    obtain ⟨stop, hbytes, hstop⟩ := hends
    rw [pieces_of_length_le hne hfits, hbytes] at h
    by_contra hid
    rw [exec_cons, FileLine.text, e.hasneedLine_text myaddr s (hstop.imp_left And.left), if_neg hid,
      Option.bind_none] at h
    cases h

/-- The node an entry stands for. -/
def node (myaddr : SockAddr) (entry : Int × Hash) : HashChunk :=
  createNode myaddr entry.2 entry.1

theorem Ends.run (hends : line.Ends bytes) (h : line.Readable bytes) (myaddr : SockAddr)
    (s : Hasneed) : ∃ chunkid, exec (hasneedLine myaddr) s (pieces fgetsRoom bytes) =
      some ⟨chunkid, line.asEntry.toList.map (node myaddr) ++ s.list⟩ := by
  have hne := hends.ne_nil
  obtain ⟨stop, hbytes, hstop⟩ := hends
  cases line with
  | comment rest noEnd =>
    exact ⟨s.chunkid, exec_comments fun piece hpiece => decide_eq_true (h piece hpiece)⟩
  | blank spaces allSpace => exact h.elim
  | entry e =>
    refine ⟨e.id, ?_⟩
    rw [pieces_of_length_le hne h.1, hbytes, exec_cons, FileLine.text,
      e.hasneedLine_text myaddr s (hstop.imp_left And.left), if_pos h.2, Option.bind_some]
    rfl

end FileLine

/-! ## Files -/

section Lines

open FileLine

variable {myaddr : SockAddr} {s t : Hasneed} {ls : List (FileLine × List UInt8)}

/-- The nodes of the entries among some lines, the last one first. -/
def nodesOf (myaddr : SockAddr) (ls : List (FileLine × List UInt8)) : List HashChunk :=
  ((ls.filterMap fun l => l.1.asEntry).map (node myaddr)).reverse

theorem nodesOf_cons (myaddr : SockAddr) (l : FileLine × List UInt8)
    (ls : List (FileLine × List UInt8)) : nodesOf myaddr (l :: ls) =
      nodesOf myaddr ls ++ l.1.asEntry.toList.map (node myaddr) := by
  rw [nodesOf, List.filterMap_cons]
  cases l.1.asEntry with
  | none => exact (List.append_nil _).symm
  | some e => exact List.reverse_cons

/-- The pieces of some lines. -/
def allPieces (ls : List (FileLine × List UInt8)) : List (List UInt8) :=
  ls.flatMap fun l => pieces fgetsRoom l.2

theorem readable_of_length (hends : ∀ l ∈ ls, l.1.Ends l.2)
    (h : exec (hasneedLine myaddr) s (allPieces ls) = some t) :
    s.list.length + (nodesOf myaddr ls).length ≤ t.list.length ∧
      (t.list.length ≤ s.list.length + (nodesOf myaddr ls).length →
        ∀ l ∈ ls, l.1.Readable l.2) := by
  induction ls generalizing s with
  | nil =>
    cases h
    exact ⟨le_refl _, fun _ l hl => absurd hl List.not_mem_nil⟩
  | cons l ls ih =>
    rw [List.forall_mem_cons] at hends
    rw [allPieces, List.flatMap_cons, exec_append, Option.bind_eq_some_iff] at h
    obtain ⟨u, hu, h⟩ := h
    obtain ⟨hline, hline'⟩ := hends.1.grows hu
    obtain ⟨hrest, hrest'⟩ := ih hends.2 h
    rw [nodesOf_cons, List.length_append, List.length_map]
    refine ⟨by omega, fun hle => ?_⟩
    rw [List.forall_mem_cons]
    exact ⟨hline' (by omega), hrest' (by omega)⟩

theorem exec_readable (hends : ∀ l ∈ ls, l.1.Ends l.2) (h : ∀ l ∈ ls, l.1.Readable l.2)
    (myaddr : SockAddr) (s : Hasneed) : ∃ chunkid,
      exec (hasneedLine myaddr) s (allPieces ls) = some ⟨chunkid, nodesOf myaddr ls ++ s.list⟩ := by
  induction ls generalizing s with
  | nil => exact ⟨s.chunkid, rfl⟩
  | cons l ls ih =>
    rw [List.forall_mem_cons] at hends h
    obtain ⟨c, hc⟩ := hends.1.run h.1 myaddr s
    obtain ⟨d, hd⟩ := ih hends.2 h.2 ⟨c, l.1.asEntry.toList.map (node myaddr) ++ s.list⟩
    refine ⟨d, ?_⟩
    rw [allPieces, List.flatMap_cons, exec_append, hc, Option.bind_some, ← allPieces, hd,
      nodesOf_cons, List.append_assoc]

end Lines

namespace ChunkListFile

open FileLine

/-- Every line is read as it is meant. -/
def Readable (f : ChunkListFile) : Prop := ∀ l ∈ f.lineTexts, l.1.Readable l.2

variable (f : ChunkListFile)

theorem ends : ∀ l ∈ f.lineTexts, l.1.Ends l.2 := by
  intro l hl
  rcases List.mem_append.mp hl with hl | hl
  · obtain ⟨line, -, rfl⟩ := List.mem_map.mp hl
    exact ⟨[newline], rfl, .inr rfl⟩
  · obtain ⟨line, hline, rfl⟩ := List.mem_map.mp hl
    exact ⟨[], (List.append_nil _).symm, .inl ⟨rfl, f.lastText line (Option.mem_toList.mp hline)⟩⟩

theorem nodesOf_lineTexts (myaddr : SockAddr) :
    nodesOf myaddr f.lineTexts = (f.entries.map (node myaddr)).reverse := by
  rw [nodesOf, entries, lineTexts, List.filterMap_append, List.filterMap_append,
    List.filterMap_map, List.filterMap_map]
  rfl

theorem textPieces_text : textPieces newline fgetsRoom f.text = allPieces f.lineTexts := by
  obtain ⟨ended, last, hlast⟩ := f
  simp only [text, lineTexts]
  clear hlast
  induction ended with
  | nil =>
    cases last with
    | none =>
      exact (textPieces_of_not_mem (l := ([] : List UInt8)) List.not_mem_nil).trans pieces_nil
    | some line =>
      rw [List.flatMap_nil, List.nil_append]
      exact (textPieces_of_not_mem line.newline_not_mem).trans (List.append_nil _).symm
  | cons line ended ih =>
    rw [List.flatMap_cons, List.append_assoc, List.append_assoc, List.singleton_append,
      textPieces_cons line.newline_not_mem, ih]
    rfl

theorem parse_text (myaddr : SockAddr) (chunkid : Int) (old : List HashChunk) :
    parseHasneedFile myaddr chunkid old f.text =
      (exec (hasneedLine myaddr) ⟨chunkid, old⟩ (allPieces f.lineTexts)).map Hasneed.list := by
  rw [parseHasneedFile, readLoop_eq _ (by decide) _ _ _ (Nat.lt_succ_self _), f.textPieces_text]

theorem Readable.parse {f : ChunkListFile} (h : f.Readable) (myaddr : SockAddr) (chunkid : Int)
    (old : List HashChunk) : parseHasneedFile myaddr chunkid old f.text =
      some ((f.entries.map (node myaddr)).reverse ++ old) := by
  obtain ⟨c, hc⟩ := exec_readable f.ends h myaddr ⟨chunkid, old⟩
  rw [f.parse_text, hc, Option.map_some, f.nodesOf_lineTexts]

theorem readable_of_parse {myaddr : SockAddr} {chunkid : Int} {old list : List HashChunk}
    (h : parseHasneedFile myaddr chunkid old f.text = some list)
    (hlen : list.length ≤ old.length + f.entries.length) : f.Readable := by
  rw [f.parse_text, Option.map_eq_some_iff] at h
  obtain ⟨t, ht, rfl⟩ := h
  refine (readable_of_length f.ends ht).2 ?_
  rwa [f.nodesOf_lineTexts, List.length_reverse, List.length_map]

theorem Readable.reset {f : ChunkListFile} (h : f.Readable) (config : Config) (chunkid : Int) :
    resetMydownloadFile config chunkid f.text = some (resetMydownload config f.entries) := by
  rw [resetMydownloadFile, h.parse, Option.map_some, List.append_nil, resetMydownload,
    parseHasneedList_eq]
  rfl

/-- **Only entries produce chunks** exactly in the files that are read as they are meant. -/
theorem only_entries_iff (config : Config) (chunkid : Int) (old : List HashChunk) :
    (∃ new, parseHasneedFile config.myaddr chunkid old f.text = some (new ++ old) ∧
        new.reverse = f.entries.map fun e => createNode config.myaddr e.2 e.1) ∧
      (∃ down, resetMydownloadFile config chunkid f.text = some down ∧
        down.howmanyNeed = f.entries.length ∧
        ∀ x ∈ down.needlist, (x.chunkid, x.hash) ∈ f.entries) ↔
    f.Readable := by
  constructor
  · rintro ⟨⟨new, hparse, hnew⟩, -⟩
    refine f.readable_of_parse hparse ?_
    have hlen := congrArg List.length hnew
    rw [List.length_reverse, List.length_map] at hlen
    rw [List.length_append]
    omega
  · intro h
    refine ⟨⟨_, h.parse config.myaddr chunkid old, List.reverse_reverse _⟩, _,
      h.reset config chunkid, ?_, fun x hx => ?_⟩
    · rw [resetMydownload, parseHasneedList_eq, List.length_reverse, List.length_map]
    · rw [resetMydownload, parseHasneedList_eq, List.mem_reverse, List.mem_map] at hx
      obtain ⟨e, he, rfl⟩ := hx
      exact he

/-- An entry and a blank line. -/
def blankBehind : ChunkListFile where
  ended := [.entry ⟨[0], by decide, Vector.replicate hashSize (⟨0, false⟩, ⟨0, false⟩)⟩,
    .blank [] (by simp)]
  last := none
  lastText := by simp

/-- The blank line creates a node as well. -/
theorem blank_line_creates_node :
    (parseHasneedFile ⟨1, 2⟩ 7 [] blankBehind.text).map List.length = some 2 ∧
    ¬ ((∃ new, parseHasneedFile ⟨1, 2⟩ 7 [] blankBehind.text = some (new ++ []) ∧
        new.reverse = blankBehind.entries.map fun e => createNode ⟨1, 2⟩ e.2 e.1) ∧
      (∃ down, resetMydownloadFile ⟨4, ⟨1, 2⟩⟩ 7 blankBehind.text = some down ∧
        down.howmanyNeed = blankBehind.entries.length ∧
        ∀ x ∈ down.needlist, (x.chunkid, x.hash) ∈ blankBehind.entries)) := by
  have htwo : (parseHasneedFile ⟨1, 2⟩ 7 [] blankBehind.text).map List.length = some 2 := by
    decide
  refine ⟨htwo, ?_⟩
  rintro ⟨⟨new, hparse, hnew⟩, -⟩
  have hlen := congrArg List.length hnew
  rw [hparse, Option.map_some, List.append_nil, Option.some.injEq] at htwo
  rw [List.length_reverse, htwo] at hlen
  cases hlen

end ChunkListFile

end P2P
