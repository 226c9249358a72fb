import P2P.Peer.HasneedLines

/-!
# The file `make-chunks` prints

`make-chunks` prints a line for each hash it has computed, its index and its bytes in hexadecimal.

`parseHasneedFile_printHashes`: `parse_hasneed_list` reads every list of hashes back.
-/

namespace P2P

open Lib

/-- A lower-case hexadecimal digit. -/
def hexChar (d : Nat) : UInt8 := if d < 10 then 48 + UInt8.ofNat d else 87 + UInt8.ofNat d

/-- `binary2hex`: each byte by `%.2x`. -/
def binary2hex (buf : List UInt8) : List UInt8 :=
  buf.flatMap fun b => [hexChar (b.toNat / 16), hexChar (b.toNat % 16)]

/-- `%d` of a number that is not negative, by `printf`. -/
def printDecimal (n : Nat) : List UInt8 :=
  if n = 0 then [48] else (Nat.digits 10 n).reverse.map fun d => 48 + UInt8.ofNat d

/-- The loop of `make-chunks` that prints the hashes. -/
def printHashes (hashes : List Hash) : List UInt8 :=
  hashes.zipIdx.flatMap fun (hash, i) =>
    printDecimal i ++ 32 :: binary2hex hash.toList ++ [newline]

/-- A digit that is printed. -/
def HexDigit.printed (d : Nat) : HexDigit := ⟨⟨d % 16, Nat.mod_lt d (by decide)⟩, false⟩

theorem HexDigit.char_printed {d : Nat} (hd : d < 16) : (printed d).char = hexChar d := by
  simp [printed, hexChar, HexDigit.char, Nat.mod_eq_of_lt hd]

theorem ofNat_halves (b : UInt8) : UInt8.ofNat
    (16 * (HexDigit.printed (b.toNat / 16)).value.val +
      (HexDigit.printed (b.toNat % 16)).value.val) = b := by
  have hb := b.toNat_lt
  apply UInt8.toNat_inj.mp
  simp only [HexDigit.printed, UInt8.toNat_ofNat']
  omega

namespace EntryLine

/-- The line `make-chunks` prints for a hash. -/
def printed (hash : Hash) (i : Nat) : EntryLine where
  digits :=
    if i = 0 then [⟨0, by decide⟩]
    else (Nat.digits 10 i).reverse.map fun d => ⟨d % 10, Nat.mod_lt d (by decide)⟩
  hasDigit := by
    split
    · exact List.cons_ne_nil _ []
    · rw [ne_eq, List.map_eq_nil_iff, List.reverse_eq_nil_iff, Nat.digits_eq_nil_iff_eq_zero]
      assumption
  hex := hash.map fun b => (HexDigit.printed (b.toNat / 16), HexDigit.printed (b.toNat % 16))

variable (hash : Hash) (i : Nat)

theorem idText_printed : (printed hash i).idText = printDecimal i := by
  unfold idText printed printDecimal
  split
  · rfl
  · rw [List.map_map]
    refine List.map_congr_left fun d hd => ?_
    have hlt : d < 10 := Nat.digits_lt_base (by decide) (List.mem_reverse.mp hd)
    simp [Nat.mod_eq_of_lt hlt]

theorem id_printed : (printed hash i).id = i := by
  unfold id printed
  split
  · simp [*]
  · rw [← List.map_reverse, List.reverse_reverse, List.map_map]
    -- no digit changes modulo 10
    have hdigits : (Nat.digits 10 i).map (fun d => d % 10) = Nat.digits 10 i := by
      refine (List.map_congr_left fun d hd => ?_).trans (List.map_id _)
      exact Nat.mod_eq_of_lt (Nat.digits_lt_base (by decide) hd)
    exact (congrArg (Nat.ofDigits 10) hdigits).trans (Nat.ofDigits_digits 10 i)

theorem hash_printed : (printed hash i).hash = hash := by
  unfold EntryLine.hash printed
  rw [Vector.map_map]
  refine Vector.ext fun k hk => ?_
  rw [Vector.getElem_map]
  exact ofNat_halves hash[k]

theorem hashText_printed : (printed hash i).hashText = binary2hex hash.toList := by
  unfold hashText printed binary2hex
  rw [Vector.toList_map, List.flatMap_map]
  refine congrArg (List.flatMap · hash.toList) (funext fun b => ?_)
  have hb := b.toNat_lt
  simp only [HexDigit.char_printed (show b.toNat / 16 < 16 by omega),
    HexDigit.char_printed (show b.toNat % 16 < 16 by omega)]

theorem length_text_printed (hi : i < 2 ^ 31) : (printed hash i).text.length ≤ 51 := by
  have hdigits : (Nat.digits 10 i).length ≤ 10 :=
    (Nat.digits_length_le_iff (by decide) i).mpr (by omega)
  have hid : (printed hash i).idText.length ≤ 10 := by
    unfold idText printed
    split
    · exact Nat.le_of_ble_eq_true rfl
    · rwa [List.length_map, List.length_map, List.length_reverse]
  rw [text, List.length_append, List.length_cons, length_hashText]
  omega

end EntryLine

/-- The file `make-chunks` prints. -/
def printedFile (hashes : List Hash) : ChunkListFile where
  ended := hashes.zipIdx.map fun h => .entry (EntryLine.printed h.1 h.2)
  last := none
  lastText := fun _ h => absurd h (Option.not_mem_none _)

namespace ChunkListFile

variable (hashes : List Hash)

theorem text_printedFile : (printedFile hashes).text = printHashes hashes := by
  unfold printedFile text printHashes
  rw [Option.map_none, Option.getD_none, List.append_nil, List.flatMap_map]
  refine congrArg (List.flatMap · hashes.zipIdx) (funext fun (hash, i) => ?_)
  change (EntryLine.printed hash i).text ++ [newline] = _
  rw [EntryLine.text, EntryLine.idText_printed, EntryLine.hashText_printed]

theorem entries_printedFile :
    (printedFile hashes).entries = hashes.zipIdx.map fun (hash, i) => ((i : Int), hash) := by
  unfold printedFile entries
  rw [Option.toList_none, List.append_nil, List.filterMap_map, ← List.filterMap_eq_map]
  refine congrArg (List.filterMap · hashes.zipIdx) (funext fun (hash, i) => ?_)
  change some (((EntryLine.printed hash i).id : Int), (EntryLine.printed hash i).hash) = _
  rw [EntryLine.id_printed, EntryLine.hash_printed]
  rfl

theorem readable_printedFile (hk : hashes.length < 2 ^ 31) : (printedFile hashes).Readable := by
  intro l hl
  unfold printedFile lineTexts at hl
  rw [Option.toList_none, List.map_nil, List.append_nil, List.map_map] at hl
  obtain ⟨⟨hash, i⟩, hmem, rfl⟩ := List.mem_map.mp hl
  have hi : i < 2 ^ 31 := by
    have := List.snd_lt_of_mem_zipIdx hmem
    omega
  have hlen := EntryLine.length_text_printed hash i hi
  refine ⟨?_, by rwa [EntryLine.id_printed]⟩
  change ((EntryLine.printed hash i).text ++ [newline]).length ≤ 254
  rw [List.length_append, List.length_singleton]
  omega

end ChunkListFile

/-- **Round trip** from `make-chunks` to `parse_hasneed_list`, for every list of hashes. -/
theorem parseHasneedFile_printHashes (hashes : List Hash) (hk : hashes.length < 2 ^ 31)
    (myaddr : SockAddr) (chunkid : Int) :
    ∃ list, parseHasneedFile myaddr chunkid [] (printHashes hashes) = some list ∧
      list.length = hashes.length ∧
      list.reverse = hashes.zipIdx.map (fun (hash, i) => createNode myaddr hash i) ∧
      printHashes (list.reverse.map HashChunk.hash) = printHashes hashes := by
  have hparse := (ChunkListFile.readable_printedFile hashes hk).parse myaddr chunkid []
  rw [ChunkListFile.text_printedFile, ChunkListFile.entries_printedFile, List.append_nil,
    List.map_map] at hparse
  refine ⟨_, hparse, ?_, List.reverse_reverse _, ?_⟩
  · rw [List.length_reverse, List.length_map, List.length_zipIdx]
  · rw [List.reverse_reverse, List.map_map]
    exact congrArg printHashes (List.zipIdx_map_fst 0 hashes)

theorem parseHasneedFile_printHashes_two :
    ∃ list, parseHasneedFile ⟨1, 2⟩ 7 []
        (printHashes [Vector.replicate 20 0, Vector.replicate 20 255]) = some list ∧
      list.reverse = [createNode ⟨1, 2⟩ (Vector.replicate 20 0) 0,
        createNode ⟨1, 2⟩ (Vector.replicate 20 255) 1] := by
  obtain ⟨list, hparse, -, hrev, -⟩ := parseHasneedFile_printHashes
    [Vector.replicate 20 0, Vector.replicate 20 255] (by decide) ⟨1, 2⟩ 7
  exact ⟨list, hparse, hrev⟩

end P2P
