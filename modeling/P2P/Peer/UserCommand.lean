import P2P.Lib.Words
import P2P.Peer.HasneedFile
import P2P.Peer.InputBuffer

/-!
# Commands

`handle_user_input` looks for a GET with the name of a chunk file and the name of an output file
in each line that `process_user_input` hands to it.

* `handleUserInput_eq_some_iff`: the lines that start a GET, and its two names;
* `typed_gets`: the GETs started are those typed, however the text is cut by the reads, if no read
  fills the buffer by more than half.
-/

namespace P2P

open Lib

/-! ## `handle_user_input` -/

/-- The width of `%120s`. -/
def nameWidth : Nat := 120

/-- What `sscanf` returns, and the two buffers afterwards. -/
structure ScannedGet where
  ret : Int
  chunkf : List UInt8
  outf : List UInt8
  deriving DecidableEq

/-- `sscanf(line, "GET %120s %120s", chunkf, outf)` into empty buffers: `-1` stands for `EOF`, where
the line ends before the first name. A blank of the format matches any blanks, also none. -/
def scanGet (line : List UInt8) : ScannedGet :=
  match line with
  | 71 :: 69 :: 84 :: s =>
    match scanWord isspace nameWidth s with
    | none => ⟨-1, [], []⟩
    | some (chunkf, s) =>
      match scanWord isspace nameWidth s with
      | none => ⟨1, chunkf, []⟩
      | some (outf, _) => ⟨2, chunkf, outf⟩
  | [71, 69] | [71] | [] => ⟨-1, [], []⟩
  | _ => ⟨0, [], []⟩

/-- `handle_user_input`: the names `process_get` is called with, where it is. -/
def handleUserInput (line : List UInt8) : Option (List UInt8 × List UInt8) :=
  let r := scanGet line
  if r.ret ≠ 0 then
    if 0 < r.outf.length then some (r.chunkf, r.outf) else none
  else none

/-- The letters of the command. -/
def getLetters : List UInt8 := [71, 69, 84]

variable {line chunkf outf rest : List UInt8}

theorem nameWidth_pos : 0 < nameWidth := by decide

theorem scanGet_letters (s : List UInt8) : scanGet (getLetters ++ s) =
    match scanWord isspace nameWidth s with
    | none => ⟨-1, [], []⟩
    | some (chunkf, s) =>
      match scanWord isspace nameWidth s with
      | none => ⟨1, chunkf, []⟩
      | some (outf, _) => ⟨2, chunkf, outf⟩ := rfl

/-- A line that does not start with the letters stores nothing. -/
theorem letters_of_outf (h : (scanGet line).outf ≠ []) : ∃ s, line = getLetters ++ s := by
  unfold scanGet at h
  split at h
  · exact ⟨_, rfl⟩
  all_goals exact absurd rfl h

/-- **The lines that start a GET**: the letters, and two words with blanks before each. Between the
words the blanks are missing only where the first is as long as the width allows. -/
theorem handleUserInput_eq_some_iff : handleUserInput line = some (chunkf, outf) ↔
    ∃ gap₁ gap₂ rest, line = getLetters ++ (gap₁ ++ (chunkf ++ (gap₂ ++ (outf ++ rest)))) ∧
      (∀ c ∈ gap₁, isspace c) ∧ (∀ c ∈ gap₂, isspace c) ∧
      IsWord isspace nameWidth chunkf (gap₂ ++ (outf ++ rest)) ∧
      IsWord isspace nameWidth outf rest := by
  constructor
  · intro h
    unfold handleUserInput at h
    simp only at h
    split at h
    case isFalse => cases h
    split at h
    case isFalse => cases h
    case isTrue hout =>
      cases h
      obtain ⟨s, rfl⟩ := letters_of_outf (List.length_pos_iff.mp hout)
      rw [scanGet_letters] at hout ⊢
      cases h₁ : scanWord isspace nameWidth s with
      | none =>
        rw [h₁] at hout
        cases hout
      | some r₁ =>
        obtain ⟨chunkf, s₁⟩ := r₁
        simp only [h₁] at hout ⊢
        cases h₂ : scanWord isspace nameWidth s₁ with
        | none =>
          rw [h₂] at hout
          cases hout
        | some r₂ =>
          obtain ⟨outf, rest⟩ := r₂
          obtain ⟨gap₁, rfl, hgap₁, hchunk⟩ := (scanWord_eq_some_iff nameWidth_pos).mp h₁
          obtain ⟨gap₂, rfl, hgap₂, hout⟩ := (scanWord_eq_some_iff nameWidth_pos).mp h₂
          exact ⟨gap₁, gap₂, rest, rfl, hgap₁, hgap₂, hchunk, hout⟩
  · rintro ⟨gap₁, gap₂, rest, rfl, hgap₁, hgap₂, hchunk, hout⟩
    have h₁ := (scanWord_eq_some_iff nameWidth_pos).mpr ⟨gap₁, rfl, hgap₁, hchunk⟩
    have h₂ := (scanWord_eq_some_iff nameWidth_pos).mpr ⟨gap₂, rfl, hgap₂, hout⟩
    have hpos : 0 < outf.length := List.length_pos_iff.mpr hout.ne_nil
    unfold handleUserInput
    simp only [scanGet_letters, h₁, h₂]
    rw [if_pos (by decide), if_pos hpos]

/-! ## Typed text -/

namespace Session

variable {inputs : List (List UInt8)}

/-- The GETs the session has started. -/
def gets (s : Session) : List (List UInt8 × List UInt8) :=
  s.handled.filterMap fun c => handleUserInput c.line

/-- **Typed text**: every line is handled once, as it was typed. -/
theorem exec_typed (h0 : 0 ∉ inputs.flatten) (hhalf : HalfFull [] inputs) :
    ∃ s, exec next start inputs = some s ∧ s.received = inputs.flatten ∧ s.Exact ∧
      s.gets = (lines newline inputs.flatten).filterMap handleUserInput := by
  obtain ⟨s, hrun, hrec, hs⟩ := exec_halfFull h0 zeroed_start hhalf
  have hrec : s.received = inputs.flatten := hrec
  refine ⟨s, hrun, hrec, hs.ready.exact, ?_⟩
  rw [← hrec, ← hs.ready.exact.lines, List.filterMap_map]
  rfl

end Session

/-! ## What a user types -/

/-- A name that `%120s` reads. -/
structure PlainName (name : List UInt8) : Prop where
  ne_nil : name ≠ []
  no_blank : ∀ c ∈ name, isspace c = false
  no_zero : 0 ∉ name
  le_width : name.length ≤ nameWidth

/-- `GET` and the two names, with a blank before each. -/
def commandLine (names : List UInt8 × List UInt8) : List UInt8 :=
  getLetters ++ 32 :: (names.1 ++ 32 :: names.2)

def commandText (names : List UInt8 × List UInt8) : List UInt8 := commandLine names ++ [newline]

variable {names : List UInt8 × List UInt8} {cmds : List (List UInt8 × List UInt8)}

theorem newline_blank : isspace newline = true := by decide

theorem PlainName.no_newline {name : List UInt8} (h : PlainName name) : newline ∉ name := by
  intro hmem
  have := h.no_blank newline hmem
  rw [newline_blank] at this
  cases this

theorem handleUserInput_commandLine (h₁ : PlainName names.1) (h₂ : PlainName names.2) :
    handleUserInput (commandLine names) = some names := by
  have hblank : ∀ c ∈ [(32 : UInt8)], isspace c = true := by
    intro c hc
    rw [List.mem_singleton.mp hc]
    rfl
  refine handleUserInput_eq_some_iff.mpr ⟨[32], [32], [], ?_, hblank, hblank, ?_, ?_⟩
  · simp [commandLine]
  · refine ⟨h₁.ne_nil, h₁.no_blank, h₁.le_width, fun _ c hc => ?_⟩
    rw [List.singleton_append, List.head?_cons, Option.mem_some_iff] at hc
    exact hblank c (List.mem_singleton.mpr hc.symm)
  · refine ⟨h₂.ne_nil, h₂.no_blank, h₂.le_width, fun _ c hc => ?_⟩
    exact absurd hc (Option.not_mem_none c)

theorem not_mem_commandLine (h₁ : PlainName names.1) (h₂ : PlainName names.2) :
    newline ∉ commandLine names ∧ 0 ∉ commandLine names := by
  have hn₁ := h₁.no_newline
  have hn₂ := h₂.no_newline
  have hz₁ := h₁.no_zero
  have hz₂ := h₂.no_zero
  constructor
  · simp only [commandLine, getLetters, newline, List.mem_append, List.mem_cons,
      List.not_mem_nil] at hn₁ hn₂ ⊢
    simp [hn₁, hn₂]
  · simp [commandLine, getLetters, hz₁, hz₂]

theorem lines_commands (h : ∀ c ∈ cmds, PlainName c.1 ∧ PlainName c.2) :
    lines newline (cmds.map commandText).flatten = cmds.map commandLine ∧
      unended newline (cmds.map commandText).flatten = [] := by
  induction cmds with
  | nil => exact ⟨lines_of_not_mem List.not_mem_nil, unended_of_not_mem List.not_mem_nil⟩
  | cons c cmds ih =>
    rw [List.forall_mem_cons] at h
    obtain ⟨hlines, hend⟩ := ih h.2
    have hno := (not_mem_commandLine h.1.1 h.1.2).1
    have happ : (((c :: cmds).map commandText).flatten) =
        commandLine c ++ newline :: (cmds.map commandText).flatten := by
      simp [commandText]
    rw [happ, lines_cons hno, unended_cons hno, hlines, hend]
    exact ⟨rfl, rfl⟩

/-- **Commands typed are GETs started**, in their order and with their names, however the text is
cut by the reads, and nothing is left in the buffer. -/
theorem typed_gets (h : ∀ c ∈ cmds, PlainName c.1 ∧ PlainName c.2) {inputs : List (List UInt8)}
    (htext : inputs.flatten = (cmds.map commandText).flatten)
    (hhalf : Session.HalfFull [] inputs) :
    ∃ s, exec Session.next Session.start inputs = some s ∧ s.gets = cmds ∧
      s.userbuf.cur = 0 := by
  have h0 : 0 ∉ inputs.flatten := by
    rw [htext, List.mem_flatten]
    rintro ⟨text, htext, hmem⟩
    obtain ⟨c, hc, rfl⟩ := List.mem_map.mp htext
    have hno := (not_mem_commandLine (h c hc).1 (h c hc).2).2
    rw [commandText, List.mem_append, List.mem_singleton] at hmem
    exact hmem.elim hno (by decide)
  obtain ⟨s, hrun, hrec, hex, hgets⟩ := Session.exec_typed h0 hhalf
  obtain ⟨hlines, hend⟩ := lines_commands h
  rw [← htext] at hlines hend
  refine ⟨s, hrun, ?_, ?_⟩
  · rw [hgets, hlines, List.filterMap_map]
    have hall : ∀ c ∈ cmds, (handleUserInput ∘ commandLine) c = some c := fun c hc =>
      handleUserInput_commandLine (h c hc).1 (h c hc).2
    rw [List.filterMap_congr hall, List.filterMap_some]
  · have hlen := length_lines newline inputs.flatten
    have hcur := hex.cur
    rw [consumed_eq, hex.lines, hrec] at hcur
    rw [hend, List.length_nil] at hlen
    rw [← UInt32.toNat_inj]
    change s.userbuf.cur.toNat = 0
    omega

/-- Two commands in three reads. -/
theorem typed_gets_two :
    ∃ s, exec Session.next Session.start [[71, 69, 84, 32, 97], [32, 98, 10, 71, 69, 84, 32],
      [99, 32, 100, 10]] = some s ∧ s.gets = [([97], [98]), ([99], [100])] ∧ s.userbuf.cur = 0 := by
  have hname : ∀ c, isspace c = false → c ≠ 0 → PlainName [c] := fun c hc h0 =>
    ⟨by simp, by simpa using hc, by simpa using h0.symm, (by decide : 1 ≤ nameWidth)⟩
  have htext : [[71, 69, 84, 32, 97], [32, 98, 10, 71, 69, 84, 32], [99, 32, 100, 10]].flatten =
      ([([97], [98]), ([99], [100])].map commandText).flatten := rfl
  refine typed_gets ?_ htext ?_
  · intro c hc
    rcases List.mem_cons.mp hc with rfl | hc
    · exact ⟨hname 97 (by decide) (by decide), hname 98 (by decide) (by decide)⟩
    · rw [List.mem_singleton.mp hc]
      exact ⟨hname 99 (by decide) (by decide), hname 100 (by decide) (by decide)⟩
  · exact ⟨by decide, by decide, by decide, trivial⟩

end P2P
