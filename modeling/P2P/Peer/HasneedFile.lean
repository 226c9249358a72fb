import P2P.Lib.CString
import P2P.Lib.Pieces
import P2P.Peer.Download

/-!
# Chunk files

`parse_hasneed_list` reads a file line by line with `fgets`, which returns a line that does not
fit into `line` in several pieces, and looks for a number and a word in each with `sscanf`.
-/

namespace P2P

open Lib

/-- `BT_FILENAME_LEN`. -/
def btFilenameLen : Nat := 255

/-! ## Hexadecimal digits -/

/-- `toupper` in the C locale. -/
def toupper (c : UInt8) : UInt8 := if 97 ≤ c ∧ c ≤ 122 then c - 32 else c

/-- `_hex2binary`; `char` is signed. -/
def hexChar2binary (hex : UInt8) : UInt8 :=
  let hex := toupper hex
  if hex.toInt8 ≤ 57 then hex - 48 else hex - 55

/-- `hex2binary`, on as many characters as `len` says. -/
def hex2binary : List UInt8 → List UInt8
  | hi :: lo :: hex => (hexChar2binary hi <<< 4 ||| hexChar2binary lo) :: hex2binary hex
  | _ => []

/-! ## Numbers and words -/

/-- `isspace` in the C locale. -/
def isspace (c : UInt8) : Bool := c = 32 ∨ 9 ≤ c ∧ c ≤ 13

def isdigit (c : UInt8) : Bool := 48 ≤ c ∧ c ≤ 57

/-- The sign a number may start with, and what is behind it. -/
def scanSign : List UInt8 → Int × List UInt8
  | 43 :: s => (1, s)
  | 45 :: s => (-1, s)
  | s => (1, s)

/-- The value of decimal digits. -/
def digitsValue (digits : List UInt8) : Nat :=
  digits.foldl (fun v c => 10 * v + (c.toNat - 48)) 0

/-- What `sscanf` returns and stores. -/
structure Scanned where
  ret : Int
  chunkid : Int
  hash : List UInt8
  deriving DecidableEq

/-- `sscanf(line, "%d %s", &chunkid, hash)` where `chunkid` holds a value and `hash` nothing: `-1`
stands for `EOF`. `none` where the number is no `int` or the word does not fit into `hash`. -/
def sscanf (line : List UInt8) (chunkid : Int) : Option Scanned :=
  let s := line.dropWhile isspace
  if s = [] then some ⟨-1, chunkid, []⟩
  else
    let (sign, s) := scanSign s
    let digits := s.takeWhile isdigit
    if digits = [] then some ⟨0, chunkid, []⟩
    else
      let value := sign * digitsValue digits
      if value < -2 ^ 31 ∨ 2 ^ 31 ≤ value then none
      else
        let word := ((s.dropWhile isdigit).dropWhile isspace).takeWhile fun c => !isspace c
        if word = [] then some ⟨1, value, []⟩
        else if 50 ≤ word.length then none
        else some ⟨2, value, word⟩

/-! ## The file -/

/-- What the loop of `parse_hasneed_list` keeps from one line to the next. -/
structure Hasneed where
  chunkid : Int
  list : List HashChunk
  deriving DecidableEq

/-- The body of the loop for what `fgets` has read. `none` where the assertion fails, or `sscanf` is
undefined. -/
def hasneedLine (myaddr : SockAddr) (s : Hasneed) (line : List UInt8) : Option Hasneed :=
  if line.head? = some 35 then some s
  else
    (sscanf (cstr (line ++ [0])) s.chunkid).bind fun r =>
      if r.ret = 0 then none
      else
        let hash := r.hash ++ List.replicate (50 - r.hash.length) 0
        (Hash.ofBytes (hex2binary (hash.take 40))).map fun decoded =>
          { chunkid := r.chunkid, list := appendNode s.list (createNode myaddr decoded r.chunkid) }

/-- `parse_hasneed_list`, from the text of the file, the value `chunkid` has before it is set, and
the list to add to. -/
def parseHasneedFile (myaddr : SockAddr) (chunkid : Int) (list : List HashChunk)
    (text : List UInt8) : Option (List HashChunk) :=
  (readLoop newline (btFilenameLen - 1) (hasneedLine myaddr) (text.length + 1) text
    ⟨chunkid, list⟩).map Hasneed.list

/-- `reset_mydownload` from the text of the chunk file. -/
def resetMydownloadFile (config : Config) (chunkid : Int) (text : List UInt8) :
    Option DownloadConn :=
  (parseHasneedFile config.myaddr chunkid [] text).map fun needlist =>
    { concurrDownloadNum := 0
      maxDownloadNum := config.maxConn
      howmanyFound := 0
      howmanyNeed := needlist.length
      needlist := needlist
      getTosendQuene := []
      getSentList := []
      downloadingList := [] }

/-! ## A number and a word -/

theorem isspace_of_isdigit {c : UInt8} (h : isdigit c = true) : isspace c = false := by
  simp only [isdigit, isspace, decide_eq_true_eq, decide_eq_false_iff_not, UInt8.le_iff_toNat_le,
    ← UInt8.toNat_inj, UInt8.reduceToNat] at h ⊢
  omega

theorem scanSign_of_isdigit {c : UInt8} (h : isdigit c = true) (s : List UInt8) :
    scanSign (c :: s) = (1, c :: s) := by
  unfold scanSign
  split
  · cases ‹c :: s = _›
    cases h
  · cases ‹c :: s = _›
    cases h
  · rfl

theorem sscanf_number_word {number word stop : List UInt8} (hnumber : ∀ c ∈ number, isdigit c)
    (hne : number ≠ []) (hword : ∀ c ∈ word, isspace c = false) (hwne : word ≠ [])
    (hlen : word.length < 50) (hstop : ∀ c ∈ stop, isspace c) (chunkid : Int) :
    sscanf (number ++ 32 :: (word ++ stop)) chunkid =
      if digitsValue number < 2 ^ 31 then some ⟨2, digitsValue number, word⟩ else none := by
  obtain ⟨c, number, rfl⟩ := List.exists_cons_of_ne_nil hne
  obtain ⟨d, word, rfl⟩ := List.exists_cons_of_ne_nil hwne
  have hc : isdigit c = true := hnumber c List.mem_cons_self
  have hd : isspace d = false := hword d List.mem_cons_self
  have hnospace : (c :: number ++ 32 :: (d :: word ++ stop)).dropWhile isspace =
      c :: number ++ 32 :: (d :: word ++ stop) :=
    List.dropWhile_cons_of_neg (by rw [isspace_of_isdigit hc]; exact Bool.false_ne_true)
  have hdigits : (c :: number ++ 32 :: (d :: word ++ stop)).takeWhile isdigit = c :: number := by
    rw [List.takeWhile_append_of_pos hnumber, List.takeWhile_cons_of_neg (by decide),
      List.append_nil]
  have hrest : (c :: number ++ 32 :: (d :: word ++ stop)).dropWhile isdigit =
      32 :: (d :: word ++ stop) := by
    rw [List.dropWhile_append_of_pos hnumber, List.dropWhile_cons_of_neg (by decide)]
  have hblank : (32 :: (d :: word ++ stop)).dropWhile isspace = d :: word ++ stop := by
    rw [List.dropWhile_cons_of_pos (by decide), List.cons_append,
      List.dropWhile_cons_of_neg (by rw [hd]; exact Bool.false_ne_true)]
  have htoken : (d :: word ++ stop).takeWhile (fun c => !isspace c) = d :: word := by
    rw [List.takeWhile_append_of_pos fun c hc => by rw [hword c hc]; rfl]
    cases stop with
    | nil => rw [List.takeWhile_nil, List.append_nil]
    | cons e stop =>
      have he := hstop e List.mem_cons_self
      rw [List.takeWhile_cons_of_neg (by rw [he]; exact Bool.false_ne_true), List.append_nil]
  have hsign : scanSign (c :: number ++ 32 :: (d :: word ++ stop)) =
      (1, c :: number ++ 32 :: (d :: word ++ stop)) := scanSign_of_isdigit hc _
  have hs : c :: number ++ 32 :: (d :: word ++ stop) ≠ [] := List.cons_ne_nil _ _
  have hfits : ¬ 50 ≤ (d :: word).length := by omega
  simp only [sscanf, hnospace, if_neg hs, hsign, hdigits, if_neg (List.cons_ne_nil c number), hrest,
    hblank, htoken, if_neg (List.cons_ne_nil d word), if_neg hfits, one_mul]
  by_cases hv : digitsValue (c :: number) < 2 ^ 31
  · rw [if_pos hv, if_neg (by omega)]
  · rw [if_neg hv, if_pos (by omega)]

/-! ## Pieces -/

/-- What is read as a comment. -/
def isComment (line : List UInt8) : Bool := line.head? = some 35

variable {myaddr : SockAddr} {s t : Hasneed} {line : List UInt8} {lines : List (List UInt8)}

theorem hasneedLine_comment (h : isComment line) : hasneedLine myaddr s line = some s :=
  if_pos (of_decide_eq_true h)

theorem hasneedLine_length (hc : isComment line = false) (h : hasneedLine myaddr s line = some t) :
    t.list.length = s.list.length + 1 := by
  rw [hasneedLine, if_neg (of_decide_eq_false hc), Option.bind_eq_some_iff] at h
  obtain ⟨r, -, h⟩ := h
  split at h
  · cases h
  · obtain ⟨decoded, -, rfl⟩ := Option.map_eq_some_iff.mp h
    rfl

theorem exec_comments (h : ∀ line ∈ lines, isComment line = true) :
    exec (hasneedLine myaddr) s lines = some s := by
  induction lines with
  | nil => rfl
  | cons line lines ih =>
    rw [List.forall_mem_cons] at h
    rw [exec_step (hasneedLine_comment h.1), ih h.2]

/-- The loop creates a node for everything it does not read as a comment. -/
theorem exec_length (h : exec (hasneedLine myaddr) s lines = some t) :
    t.list.length = s.list.length + lines.countP fun line => !isComment line := by
  induction lines generalizing s with
  | nil =>
    cases h
    rfl
  | cons line lines ih =>
    obtain ⟨u, hu, h⟩ := exec_cons_eq_some.mp h
    rw [ih h]
    cases hc : isComment line with
    | true =>
      rw [hasneedLine_comment hc, Option.some.injEq] at hu
      rw [hu, List.countP_cons_of_neg (by simp [hc])]
    | false =>
      rw [hasneedLine_length hc hu, List.countP_cons_of_pos (by simp [hc])]
      omega

end P2P
