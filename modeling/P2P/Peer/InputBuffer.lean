import P2P.Lib.CString
import P2P.Lib.Lines
import P2P.Lib.Runs

/-!
# Lines of user input

`input_buffer.c` collects what `read` returns and hands each finished line to `handle_line`. The
search for the end of a line relies on a zero behind the bytes received, which nothing writes
there: it is one of the zeros `create_userbuf` left, or a byte that an earlier shift left
standing.

`lines_handled_iff`: the lines handled are those received exactly as long as no newline stands
behind the bytes just read, before the next zero.
-/

namespace P2P

open Lib

def userbufSize : Nat := 8191

structure UserIobuf where
  buf : List UInt8
  cur : UInt32
  size : buf.length = userbufSize + 1
  /-- No operation writes the last byte. -/
  last : buf[userbufSize]? = some 0

def createUserbuf : UserIobuf where
  buf := List.replicate (userbufSize + 1) 0
  cur := 0
  size := List.length_replicate
  last := by simp

/-- A call of `handle_line`, with `cur` after the shift that follows it. -/
structure Call where
  line : List UInt8
  cur : UInt32
  deriving DecidableEq

namespace UserIobuf

/-- What `read` leaves behind. -/
def read (b : UserIobuf) (input : List UInt8) (h : b.cur.toNat + input.length ≤ userbufSize) :
    UserIobuf where
  buf := store b.buf b.cur.toNat input
  cur := b.cur + UInt32.ofNat input.length
  size := by
    have := b.size
    rw [length_store (by omega), this]
  last := by
    have := b.size
    rw [store_getElem? (by omega) h, b.last]

/-- The zero over the end of the line. -/
def terminated (b : UserIobuf) (ret : Nat) : List UInt8 := b.buf.set ret 0

/-- `memmove(buf, ret + 1, USERBUF_SIZE - (ret - buf))`. -/
def shift (b : UserIobuf) (ret : Nat) : UserIobuf where
  buf := memmove (b.terminated ret) 0 (ret + 1) (userbufSize - ret)
  cur := b.cur - UInt32.ofNat (ret + 1)
  size := by
    have hlen : (b.terminated ret).length = userbufSize + 1 := by
      rw [terminated, List.length_set, b.size]
    rw [memmove, length_store (by rw [List.length_take]; omega), hlen]
  last := by
    have hlen := b.size
    rw [memmove, store_getElem? (Nat.zero_le _) (by rw [List.length_take]; omega), terminated,
      List.getElem?_set]
    split
    · rw [if_pos (by omega)]
    · exact b.last

end UserIobuf

/-- The `while` loop of `process_user_input`. Each pass shortens the string in the buffer. -/
def processLoop : Nat → UserIobuf → Option (UserIobuf × List Call)
  | 0, _ => none
  | n + 1, b =>
    (strchr newline b.buf).bind fun ret =>
      match ret with
      | none => some (b, [])
      | some ret =>
        let call := { line := cstr (b.terminated ret), cur := (b.shift ret).cur }
        (processLoop n (b.shift ret)).map fun (t, calls) => (t, call :: calls)

/-- `process_user_input`, with the bytes `read` returns; none stand for a result that is not
positive. `none` is the exit at a full buffer, or a `read` past the space it is given. -/
def processUserInput (input : List UInt8) (b : UserIobuf) : Option (UserIobuf × List Call) :=
  if userbufSize - 1 ≤ b.cur.toNat then none
  else if h : b.cur.toNat + input.length ≤ userbufSize then
    processLoop (userbufSize + 1) (b.read input h)
  else none

/-! ## One call -/

/-- The bytes that the lines of some calls took. -/
def consumed (calls : List Call) : Nat := (calls.map fun c => c.line.length + 1).sum

@[simp] theorem consumed_append (calls more : List Call) :
    consumed (calls ++ more) = consumed calls + consumed more := by
  simp [consumed]

@[simp] theorem consumed_cons (c : Call) (calls : List Call) :
    consumed (c :: calls) = c.line.length + 1 + consumed calls := by
  simp [consumed]

@[simp] theorem consumed_nil : consumed [] = 0 := rfl

theorem consumed_eq (calls : List Call) :
    consumed calls = ((calls.map Call.line).map fun line => line.length + 1).sum := by
  rw [List.map_map]
  rfl

variable {b : UserIobuf} {line rest input : List UInt8}

theorem terminated_eq (hbuf : b.buf = line ++ newline :: rest) :
    b.terminated line.length = line ++ 0 :: rest := by
  simp [UserIobuf.terminated, hbuf]

theorem shift_buf (hbuf : b.buf = line ++ newline :: rest) :
    (b.shift line.length).buf = rest ++ (line ++ 0 :: rest).drop (userbufSize - line.length) := by
  have hlen := b.size
  have hdrop : (line ++ 0 :: rest).drop (line.length + 1) = rest := by
    rw [List.drop_length_add_append]
    rfl
  rw [hbuf, List.length_append, List.length_cons] at hlen
  simp only [UserIobuf.shift, memmove, terminated_eq hbuf, hdrop, store, List.take_zero,
    List.nil_append, Nat.zero_add]
  rw [List.take_of_length_le (by omega), show rest.length = userbufSize - line.length by omega]

theorem processLoop_line (hbuf : b.buf = line ++ newline :: rest) (hnl : newline ∉ line)
    (h0 : 0 ∉ line) (n : Nat) : processLoop (n + 1) b =
      (processLoop n (b.shift line.length)).map fun (t, calls) =>
        (t, ⟨line, (b.shift line.length).cur⟩ :: calls) := by
  rw [processLoop, hbuf, strchr_append_cons hnl h0, Option.bind_some]
  simp only [terminated_eq hbuf, cstr_append h0]

theorem processLoop_done (hbuf : b.buf = line ++ 0 :: rest) (hnl : newline ∉ line)
    (h0 : 0 ∉ line) (n : Nat) : processLoop (n + 1) b = some (b, []) := by
  rw [processLoop, hbuf, strchr_of_not_mem (by decide) hnl h0, Option.bind_some]

theorem toNat_add_of_eq {c n : UInt32} {k : Nat} (h : c + UInt32.ofNat k = n) (hk : k ≤ n.toNat) :
    c.toNat + k = n.toNat := by
  have hc := c.toNat_lt
  have hn := n.toNat_lt
  have hsum := congrArg UInt32.toNat h
  rw [UInt32.toNat_add, UInt32.toNat_ofNat'] at hsum
  omega

/-- What the loop does to a buffer that holds the string `d`. The equations for `cur` are modulo
`2 ^ 32`. -/
structure Handled (d : List UInt8) (b t : UserIobuf) (calls : List Call) : Prop where
  lines : calls.map Call.line = lines newline d
  left : ∃ rest, t.buf = unended newline d ++ 0 :: rest
  cur : t.cur + UInt32.ofNat (consumed calls) = b.cur
  calls : ∀ done c more, calls = done ++ c :: more →
    c.cur + UInt32.ofNat (consumed (done ++ [c])) = b.cur

theorem Handled.cons {d : List UInt8} {t : UserIobuf} {calls : List Call} (hnl : newline ∉ line)
    (h : Handled d (b.shift line.length) t calls) :
    Handled (line ++ newline :: d) b t (⟨line, (b.shift line.length).cur⟩ :: calls) := by
  -- the bytes of the line and of the lines behind it add up
  have hadd : ∀ (cur : UInt32) k, cur + UInt32.ofNat k = (b.shift line.length).cur →
      cur + UInt32.ofNat (line.length + 1 + k) = b.cur := by
    intro cur k hk
    rw [Nat.add_comm, UInt32.ofNat_add, ← UInt32.add_assoc, hk, UserIobuf.shift,
      UInt32.sub_add_cancel]
  refine ⟨?_, ?_, ?_, fun done c more heq => ?_⟩
  · rw [List.map_cons, lines_cons hnl, h.lines]
  · rw [unended_cons hnl]
    exact h.left
  · rw [consumed_cons]
    exact hadd t.cur (consumed calls) h.cur
  · cases done with
    | nil =>
      obtain ⟨rfl, rfl⟩ := List.cons_eq_cons.mp heq
      exact hadd _ 0 (by simp)
    | cons first done =>
      obtain ⟨rfl, rfl⟩ := List.cons_eq_cons.mp heq
      rw [List.cons_append, consumed_cons]
      exact hadd c.cur _ (h.calls done c more rfl)

theorem Handled.toNat {d : List UInt8} {t : UserIobuf} {calls : List Call}
    (h : Handled d b t calls) (hle : consumed calls ≤ b.cur.toNat) :
    t.cur.toNat + consumed calls = b.cur.toNat ∧ ∀ done c more, calls = done ++ c :: more →
      c.cur.toNat + consumed (done ++ [c]) = b.cur.toNat := by
  refine ⟨toNat_add_of_eq h.cur hle, fun done c more heq => ?_⟩
  have hpart : consumed (done ++ [c]) ≤ consumed calls := by
    rw [heq, consumed_append, consumed_append, consumed_cons, consumed_cons, consumed_nil]
    omega
  exact toNat_add_of_eq (h.calls done c more heq) (hpart.trans hle)

/-- **The loop** handles the lines of the string in the buffer, and enough passes are made. -/
theorem processLoop_spec (d : List UInt8) : ∀ (n : Nat) (b : UserIobuf) (rest : List UInt8),
    0 ∉ d → b.buf = d ++ 0 :: rest → d.length < n →
    ∃ t calls, processLoop n b = some (t, calls) ∧ Handled d b t calls := by
  induction d using line_induct newline with
  | hend d hnl =>
    intro n b rest h0 hbuf hn
    obtain ⟨n, rfl⟩ : ∃ k, n = k + 1 := ⟨n - 1, by omega⟩
    refine ⟨b, [], processLoop_done hbuf hnl h0 n, ?_, ⟨rest, ?_⟩, by simp, by simp⟩
    · rw [lines_of_not_mem hnl, List.map_nil]
    · rw [unended_of_not_mem hnl, hbuf]
  | hline line d hnl ih =>
    intro n b rest h0 hbuf hn
    rw [List.length_append, List.length_cons] at hn
    rw [List.mem_append, List.mem_cons, not_or, not_or] at h0
    obtain ⟨n, rfl⟩ : ∃ k, n = k + 1 := ⟨n - 1, by omega⟩
    rw [List.append_assoc, List.cons_append] at hbuf
    have hshift := shift_buf hbuf
    rw [List.append_assoc, List.cons_append] at hshift
    obtain ⟨t, calls, hrun, hh⟩ := ih n (b.shift line.length) _ h0.2.2 hshift (by omega)
    refine ⟨t, ⟨line, (b.shift line.length).cur⟩ :: calls, ?_, hh.cons hnl⟩
    rw [processLoop_line hbuf hnl h0.1, hrun, Option.map_some]

/-- What stands in the buffer behind the next `n` bytes that are read, up to the next zero. -/
def UserIobuf.stale (b : UserIobuf) (n : Nat) : List UInt8 := cstr (b.buf.drop (b.cur.toNat + n))

theorem read_buf {u : List UInt8} (hbuf : b.buf = u ++ rest) (hcur : b.cur.toNat = u.length)
    (hfit : b.cur.toNat + input.length ≤ userbufSize) :
    (b.read input hfit).buf = u ++ input ++ rest.drop input.length := by
  change store b.buf b.cur.toNat input = _
  rw [hbuf, hcur, store_append]

theorem read_cur (hfit : b.cur.toNat + input.length ≤ userbufSize) :
    (b.read input hfit).cur.toNat = b.cur.toNat + input.length := by
  have hsize : userbufSize = 8191 := rfl
  rw [UserIobuf.read, UInt32.toNat_add, UInt32.toNat_ofNat',
    Nat.mod_eq_of_lt (by omega : input.length < 2 ^ 32), Nat.mod_eq_of_lt (by omega)]

/-- **One call** handles the lines of what was left, what is read, and what stands behind. -/
theorem processUserInput_spec {u : List UInt8} (hbuf : b.buf = u ++ rest)
    (hcur : b.cur.toNat = u.length) (hfull : u.length < userbufSize - 1)
    (hfit : u.length + input.length ≤ userbufSize) (hu : 0 ∉ u) (hin : 0 ∉ input) :
    ∃ r t calls, processUserInput input b = some (t, calls) ∧
      r.cur.toNat = u.length + input.length ∧
      Handled (u ++ input ++ b.stale input.length) r t calls := by
  rw [← hcur] at hfull hfit
  have hstale : b.stale input.length = cstr (rest.drop input.length) := by
    rw [UserIobuf.stale, hbuf, hcur, List.drop_length_add_append]
  have hno := zero_not_mem_cstr (rest.drop input.length)
  -- the last byte of the buffer is among those behind
  have hzero : 0 ∈ rest.drop input.length := by
    have hlast := b.last
    rw [hbuf, List.getElem?_append_right (by omega)] at hlast
    refine List.mem_of_getElem? (i := userbufSize - u.length - input.length) ?_
    rw [List.getElem?_drop, ← hlast]
    congr 1
    omega
  obtain ⟨more, hmore⟩ := exists_cstr hzero
  have hread : (b.read input hfit).buf = u ++ input ++ b.stale input.length ++ 0 :: more := by
    rw [read_buf hbuf hcur, hstale, List.append_assoc (u ++ input), ← hmore]
  have hlen := (b.read input hfit).size
  rw [hread, List.length_append, List.length_cons] at hlen
  obtain ⟨t, calls, hrun, hh⟩ := processLoop_spec (u ++ input ++ b.stale input.length)
    (userbufSize + 1) (b.read input hfit) more (by simp [hu, hin, hstale, hno]) hread (by omega)
  refine ⟨b.read input hfit, t, calls, ?_, by rw [read_cur hfit, hcur], hh⟩
  rw [processUserInput, if_neg (by omega), dif_pos hfit, hrun]

/-! ## Reads that leave half the buffer free -/

/-- Half of `USERBUF_SIZE`, rounded up. -/
def halfUserbuf : Nat := 4096

theorem cstr_replicate_zero (k : Nat) : cstr (List.replicate k 0) = [] := by
  cases k with
  | zero => rfl
  | succ k => exact cstr_append List.not_mem_nil

theorem processLoop_zeros (d : List UInt8) : ∀ (n : Nat) (b t : UserIobuf) (calls : List Call)
    (k : Nat), 0 ∉ d → b.buf = d ++ List.replicate (k + 1) 0 → d.length ≤ halfUserbuf →
    processLoop n b = some (t, calls) →
    ∃ k, t.buf = unended newline d ++ List.replicate (k + 1) 0 := by
  have hhalf : halfUserbuf = 4096 := rfl
  have hsize : userbufSize = 8191 := rfl
  induction d using line_induct newline with
  | hend d hnl =>
    intro n b t calls k h0 hbuf hlen h
    cases n with
    | zero => cases h
    | succ n =>
      have hbuf' : b.buf = d ++ 0 :: List.replicate k 0 := hbuf
      rw [processLoop_done hbuf' hnl h0 n] at h
      cases h
      exact ⟨k, by rw [unended_of_not_mem hnl, hbuf]⟩
  | hline line d hnl ih =>
    intro n b t calls k h0 hbuf hlen h
    rw [List.mem_append, List.mem_cons, not_or, not_or] at h0
    rw [List.length_append, List.length_cons] at hlen
    rw [List.append_assoc, List.cons_append] at hbuf
    cases n with
    | zero => cases h
    | succ n =>
      rw [processLoop_line hbuf hnl h0.1, Option.map_eq_some_iff] at h
      obtain ⟨⟨t', calls'⟩, hrun, h⟩ := h
      cases h
      have hb := b.size
      rw [hbuf] at hb
      simp only [List.length_append, List.length_cons, List.length_replicate] at hb
      -- what the shift leaves standing are zeros from behind the string
      have hstay : (line ++ 0 :: (d ++ List.replicate (k + 1) 0)).drop
          (userbufSize - line.length) = List.replicate (line.length + 1) 0 := by
        rw [← List.cons_append, ← List.append_assoc, List.drop_append, List.drop_of_length_le (by
          rw [List.length_append, List.length_cons]
          omega), List.nil_append, List.drop_replicate, List.length_append, List.length_cons]
        congr 1
        omega
      have hshift : (b.shift line.length).buf =
          d ++ List.replicate (k + 1 + line.length + 1) 0 := by
        rw [shift_buf hbuf, hstay, List.append_assoc, List.replicate_append_replicate]
        rfl
      rw [unended_cons hnl]
      exact ih n _ _ _ _ h0.2.2 hshift (by omega) hrun

/-! ## Successive calls -/

/-- A buffer, with what it has received and the calls made so far. -/
structure Session where
  userbuf : UserIobuf
  received : List UInt8
  handled : List Call

namespace Session

def start : Session := { userbuf := createUserbuf, received := [], handled := [] }

/-- A call of `process_user_input`, by what its `read` returns. -/
def next (s : Session) (input : List UInt8) : Option Session :=
  (processUserInput input s.userbuf).map fun (t, calls) =>
    { userbuf := t, received := s.received ++ input, handled := s.handled ++ calls }

/-- The lines handled are those received, and `cur` counts the bytes left. -/
structure Exact (s : Session) : Prop where
  lines : s.handled.map Call.line = lines newline s.received
  cur : s.userbuf.cur.toNat + consumed s.handled = s.received.length

/-- `cur` counts the bytes left after each line that a step handles. -/
def Counts (s : Session) (_ : List UInt8) (t : Session) : Prop :=
  ∀ done c more, t.handled = s.handled ++ (done ++ c :: more) →
    c.cur.toNat + consumed (s.handled ++ (done ++ [c])) = t.received.length

/-- No newline stands behind the bytes that are read, before the next zero. -/
def Clean (s : Session) (input : List UInt8) (_ : Session) : Prop :=
  newline ∉ s.userbuf.stale input.length

/-- Every `read` returns from one byte up to the space it is given. -/
def ReadsFit : Session → List (List UInt8) → Prop
  | _, [] => True
  | s, input :: inputs =>
    (s.userbuf.cur.toNat < userbufSize - 1 →
      1 ≤ input.length ∧ s.userbuf.cur.toNat + input.length ≤ userbufSize) ∧
      ∀ t, s.next input = some t → ReadsFit t inputs

/-- A session that is exact so far, its buffer in front of the bytes left. -/
structure Ready (s : Session) : Prop where
  exact : s.Exact
  front : ∃ rest, s.userbuf.buf = unended newline s.received ++ rest
  noZero : 0 ∉ s.received

theorem ready_start : start.Ready where
  exact := ⟨rfl, rfl⟩
  front := ⟨createUserbuf.buf, rfl⟩
  noZero := List.not_mem_nil

variable {s t : Session}

theorem Ready.cur (hs : s.Ready) :
    s.userbuf.cur.toNat = (unended newline s.received).length := by
  have hlen := length_lines newline s.received
  have hcur := hs.exact.cur
  rw [consumed_eq, hs.exact.lines] at hcur
  omega

theorem Ready.unended_noZero (hs : s.Ready) : 0 ∉ unended newline s.received := fun h =>
  hs.noZero ((unended_suffix s.received).subset h)

/-- **One call** of an exact session is exact when nothing stands in its way, and only then. -/
theorem next_spec (hs : s.Ready) (hshort : (unended newline s.received).length < userbufSize - 1)
    (hfit : s.userbuf.cur.toNat + input.length ≤ userbufSize) (hin : 0 ∉ input) :
    ∃ t, s.next input = some t ∧ t.received = s.received ++ input ∧
      (t.Exact → s.Clean input t) ∧ (s.Clean input t → t.Ready ∧ s.Counts input t) := by
  obtain ⟨rest, hbuf⟩ := hs.front
  rw [hs.cur] at hfit
  obtain ⟨r, u, calls, hrun, hr, hh⟩ := processUserInput_spec hbuf hs.cur hshort hfit
    hs.unended_noZero hin
  refine ⟨⟨u, s.received ++ input, s.handled ++ calls⟩, by rw [next, hrun, Option.map_some], rfl,
    fun hex => ?_, fun hclean => ?_⟩
  · have hlines := hex.lines
    rw [List.map_append, hs.exact.lines, hh.lines, lines_append s.received,
      List.append_cancel_left_eq, lines_append_eq_left_iff] at hlines
    exact hlines
  · have hlines : calls.map Call.line = lines newline (unended newline s.received ++ input) := by
      rw [hh.lines]
      exact lines_append_eq_left_iff.mpr hclean
    -- no more is consumed than was there
    have hle : consumed calls ≤ r.cur.toNat := by
      have hlen := length_lines newline (unended newline s.received ++ input)
      rw [← hlines, ← consumed_eq, List.length_append] at hlen
      omega
    obtain ⟨hleft, hcalls⟩ := hh.toNat hle
    have hcur := hs.exact.cur
    rw [hs.cur] at hcur
    refine ⟨⟨⟨?_, ?_⟩, ?_, ?_⟩, fun done c more heq => ?_⟩
    · rw [List.map_append, hs.exact.lines, hlines, ← lines_append]
    · rw [consumed_append, List.length_append]
      change u.cur.toNat + _ = _
      omega
    · obtain ⟨rest', hfront⟩ := hh.left
      refine ⟨s.userbuf.stale input.length ++ 0 :: rest', ?_⟩
      rw [hfront, unended_append_of_not_mem hclean, ← unended_append, List.append_assoc]
    · rw [List.mem_append]
      exact not_or.mpr ⟨hs.noZero, hin⟩
    · have := hcalls done c more (List.append_cancel_left heq)
      rw [consumed_append, List.length_append]
      omega

/-- **A run** from an exact session. -/
theorem run_iff (inputs : List (List UInt8)) : ∀ {s : Session}, s.Ready → ReadsFit s inputs →
    0 ∉ inputs.flatten →
    (∀ line ∈ lines newline (s.received ++ inputs.flatten), line.length < userbufSize - 1) →
    (unended newline (s.received ++ inputs.flatten)).length < userbufSize - 1 →
    ((∃ t, exec next s inputs = some t) ∧ Always next Exact s inputs ∧
      EachStep next Counts s inputs ↔ EachStep next Clean s inputs) := by
  induction inputs with
  | nil =>
    intro s hs _ _ _ _
    exact iff_of_true ⟨⟨s, rfl⟩, hs.exact, trivial⟩ trivial
  | cons input inputs ih =>
    intro s hs hreads h0 hlines htail
    rw [List.flatten_cons] at h0 hlines htail
    rw [List.mem_append, not_or] at h0
    have hshort := unended_length_lt hlines htail
    have hfit := (hreads.1 (hs.cur ▸ hshort)).2
    obtain ⟨t, ht, hrec, honly, hkeep⟩ := next_spec hs hshort hfit h0.1
    rw [← List.append_assoc, ← hrec] at hlines htail
    have hrest := fun hready => ih hready (hreads.2 t ht) h0.2 hlines htail
    rw [exec_step ht, always_step ht, each_step ht, each_step ht]
    constructor
    · rintro ⟨hrun, ⟨-, hall⟩, -, hcounts⟩
      have hclean := honly hall.head
      exact ⟨hclean, (hrest (hkeep hclean).1).mp ⟨hrun, hall, hcounts⟩⟩
    · rintro ⟨hclean, hclean'⟩
      obtain ⟨hready, hcount⟩ := hkeep hclean
      obtain ⟨hrun, hall, hcounts⟩ := (hrest hready).mpr hclean'
      exact ⟨hrun, ⟨hs.exact, hall⟩, hcount, hcounts⟩

/-! ### Reads that leave half the buffer free -/

/-- A session with nothing but zeros behind the bytes left. -/
structure Zeroed (s : Session) : Prop where
  ready : s.Ready
  zeros : ∃ k, s.userbuf.buf = unended newline s.received ++ List.replicate (k + 1) 0

/-- No read fills the buffer by more than half, after the texts `received` before. -/
def HalfFull : List UInt8 → List (List UInt8) → Prop
  | _, [] => True
  | received, input :: inputs =>
    (unended newline received).length + input.length ≤ halfUserbuf ∧
      HalfFull (received ++ input) inputs

variable {inputs : List (List UInt8)}

theorem zeroed_start : start.Zeroed where
  ready := ready_start
  zeros := ⟨userbufSize, rfl⟩

theorem Zeroed.clean (hs : s.Zeroed) : s.Clean input t := by
  obtain ⟨k, hbuf⟩ := hs.zeros
  have hstale : s.userbuf.stale input.length = [] := by
    rw [UserIobuf.stale, hbuf, hs.ready.cur, List.drop_length_add_append, List.drop_replicate]
    exact cstr_replicate_zero _
  rw [Clean, hstale]
  exact List.not_mem_nil

theorem Zeroed.next (hs : s.Zeroed) (h0 : 0 ∉ input)
    (hfit : (unended newline s.received).length + input.length ≤ halfUserbuf) :
    ∃ t, s.next input = some t ∧ t.received = s.received ++ input ∧ t.Zeroed := by
  have hhalf : halfUserbuf = 4096 := rfl
  have hsize : userbufSize = 8191 := rfl
  have hfit' : s.userbuf.cur.toNat + input.length ≤ userbufSize := by
    rw [hs.ready.cur]
    omega
  obtain ⟨t, ht, hrec, -, hready⟩ := next_spec hs.ready (by omega) hfit' h0
  refine ⟨t, ht, hrec, (hready hs.clean).1, ?_⟩
  obtain ⟨k, hbuf⟩ := hs.zeros
  rw [Session.next, Option.map_eq_some_iff] at ht
  obtain ⟨⟨u, calls⟩, hrun, rfl⟩ := ht
  have hcur := hs.ready.cur
  rw [processUserInput, if_neg (by omega), dif_pos hfit'] at hrun
  have hlen := s.userbuf.size
  rw [hbuf, List.length_append, List.length_replicate] at hlen
  -- the bytes read lie over zeros
  have hread : (s.userbuf.read input hfit').buf =
      unended newline s.received ++ input ++ List.replicate (k - input.length + 1) 0 := by
    rw [read_buf hbuf hs.ready.cur hfit', List.drop_replicate]
    congr 2
    omega
  have hno : 0 ∉ unended newline s.received ++ input := by
    rw [List.mem_append]
    exact not_or.mpr ⟨hs.ready.unended_noZero, h0⟩
  rw [unended_append]
  exact processLoop_zeros _ _ _ _ _ _ hno hread (by rwa [List.length_append]) hrun

/-- **Reads that leave half the buffer free** lose nothing. -/
theorem exec_halfFull (h0 : 0 ∉ inputs.flatten) (hs : s.Zeroed)
    (hhalf : HalfFull s.received inputs) :
    ∃ t, exec next s inputs = some t ∧ t.received = s.received ++ inputs.flatten ∧ t.Zeroed := by
  induction inputs generalizing s with
  | nil => exact ⟨s, rfl, by simp, hs⟩
  | cons input inputs ih =>
    rw [List.flatten_cons, List.mem_append, not_or] at h0
    obtain ⟨t, ht, hrec, hzero⟩ := hs.next h0.1 hhalf.1
    obtain ⟨u, hu, hrec', hzero'⟩ := ih h0.2 hzero (hrec ▸ hhalf.2)
    refine ⟨u, by rw [exec_step ht, hu], ?_, hzero'⟩
    rw [hrec', hrec, List.flatten_cons, List.append_assoc]

theorem clean_of_halfFull (h0 : 0 ∉ inputs.flatten) (hs : s.Zeroed)
    (hhalf : HalfFull s.received inputs) (hne : ∀ input ∈ inputs, input ≠ []) :
    ReadsFit s inputs ∧ EachStep next Clean s inputs := by
  induction inputs generalizing s with
  | nil => exact ⟨trivial, trivial⟩
  | cons input inputs ih =>
    rw [List.flatten_cons, List.mem_append, not_or] at h0
    obtain ⟨hfirst, hne⟩ := List.forall_mem_cons.mp hne
    obtain ⟨t, ht, hrec, hzero⟩ := hs.next h0.1 hhalf.1
    obtain ⟨hreads, hclean⟩ := ih h0.2 hzero (hrec ▸ hhalf.2) hne
    refine ⟨⟨fun _ => ⟨List.length_pos_iff.mpr hfirst, ?_⟩, fun u hu => ?_⟩,
      (each_step ht).mpr ⟨hs.clean, hclean⟩⟩
    · have hlen := hhalf.1
      have hhalf : halfUserbuf = 4096 := rfl
      have hsize : userbufSize = 8191 := rfl
      rw [hs.ready.cur]
      omega
    · cases ht.symm.trans hu
      exact hreads

/-! ### The lines -/

/-- **Line splitting** is exact, whatever the reads return, exactly as long as no newline stands
behind the bytes of a read, before the next zero. -/
theorem lines_handled_iff (inputs : List (List UInt8)) (hreads : ReadsFit start inputs)
    (h0 : 0 ∉ inputs.flatten)
    (hlines : ∀ line ∈ lines newline inputs.flatten, line.length < userbufSize - 1)
    (htail : (unended newline inputs.flatten).length < userbufSize - 1) :
    (∃ s, exec next start inputs = some s) ∧ Always next Exact start inputs ∧
        EachStep next Counts start inputs ↔
      EachStep next Clean start inputs :=
  run_iff inputs ready_start hreads h0 hlines htail

/-- Four lines in four reads, which cut two of them. -/
theorem four_lines_handled :
    (∃ s, exec next start [[97, 98, 10, 99], [100], [10, 10, 101], [102, 10, 103]] = some s) ∧
      Always next Exact start [[97, 98, 10, 99], [100], [10, 10, 101], [102, 10, 103]] ∧
      EachStep next Counts start [[97, 98, 10, 99], [100], [10, 10, 101], [102, 10, 103]] := by
  have h0 : 0 ∉ [[97, 98, 10, 99], [100], [10, 10, 101], [102, 10, (103 : UInt8)]].flatten := by
    decide
  have hhalf : HalfFull start.received
      [[97, 98, 10, 99], [100], [10, 10, 101], [102, 10, 103]] :=
    ⟨by decide, by decide, by decide, by decide, trivial⟩
  obtain ⟨hreads, hclean⟩ := clean_of_halfFull h0 zeroed_start hhalf (by decide)
  exact (lines_handled_iff _ hreads h0 (by decide) (by decide)).mpr hclean

/-! ## A newline that stays behind -/

/-- A line that leaves two bytes of the buffer, with two ends of lines in them: the shifts copy the
second one forward and leave it standing as well. -/
theorem processLoop_twoEnds {x y : List UInt8} (hx : x.length = 2) (hy : y.length = 8187)
    (hnl : newline ∉ x ++ y) (h0 : 0 ∉ x ++ y) (hbuf : b.buf = x ++ y ++ newline :: [newline, 0])
    (hcur : b.cur = 8191) :
    ∃ t calls rest, processLoop (userbufSize + 1) b = some (t, calls) ∧ t.cur = 0 ∧
      t.buf = 0 :: (y ++ 0 :: newline :: 0 :: rest) := by
  have hlen : (x ++ y).length = 8189 := by rw [List.length_append, hx, hy]
  -- the long line
  have hbuf₁ := shift_buf hbuf
  have hpass₁ := processLoop_line hbuf hnl h0 userbufSize
  have hcur₁ : (b.shift 8189).cur = 1 := by
    rw [UserIobuf.shift, hcur]
    rfl
  rw [hlen] at hbuf₁ hpass₁
  generalize b.shift 8189 = b₁ at hbuf₁ hpass₁ hcur₁
  have hrest : b₁.buf = [] ++ newline :: (0 :: (y ++ [0, newline, 0])) := by
    rw [hbuf₁, List.append_assoc, List.drop_left' (by rw [hx]; rfl)]
    rfl
  -- the empty line
  have hbuf₂ := shift_buf hrest
  have hpass₂ := processLoop_line hrest List.not_mem_nil List.not_mem_nil (userbufSize - 1)
  have hcur₂ : (b₁.shift 0).cur = 0 := by
    rw [UserIobuf.shift, hcur₁]
    rfl
  rw [List.length_nil] at hbuf₂ hpass₂
  generalize b₁.shift 0 = b₂ at hbuf₂ hpass₂ hcur₂
  rw [List.cons_append, List.append_assoc] at hbuf₂
  have hpass₃ := processLoop_done (show b₂.buf = [] ++ 0 :: _ from hbuf₂) List.not_mem_nil
    List.not_mem_nil 8189
  refine ⟨b₂, [⟨x ++ y, b₁.cur⟩, ⟨[], b₂.cur⟩], _, ?_, hcur₂, hbuf₂⟩
  rw [hpass₁]
  change ((processLoop (userbufSize - 1 + 1) b₁).map _) = _
  rw [hpass₂]
  change (((processLoop (8189 + 1) b₂).map _).map _) = _
  rw [hpass₃]
  rfl

theorem next_twoEnds {x y : List UInt8} (hx : x.length = 2) (hy : y.length = 8187)
    (hnl : newline ∉ x ++ y) (h0 : 0 ∉ x ++ y) :
    ∃ t calls rest, start.next (x ++ y ++ [newline, newline]) =
        some ⟨t, x ++ y ++ [newline, newline], calls⟩ ∧
      t.cur = 0 ∧ t.buf = 0 :: (y ++ 0 :: newline :: 0 :: rest) := by
  have hlen : (x ++ y ++ [newline, newline]).length = 8191 := by
    rw [List.length_append, List.length_append, hx, hy]
    rfl
  have hfit : createUserbuf.cur.toNat + (x ++ y ++ [newline, newline]).length ≤ userbufSize := by
    rw [hlen]
    exact le_refl 8191
  have hbuf := read_buf (show createUserbuf.buf = [] ++ createUserbuf.buf from rfl) rfl hfit
  have hzeros : createUserbuf.buf.drop 8191 = [0] := List.drop_replicate
  rw [hlen, hzeros, List.nil_append] at hbuf
  have hcur : (createUserbuf.read _ hfit).cur = 8191 := by
    rw [UserIobuf.read, hlen]
    rfl
  obtain ⟨t, calls, rest, hrun, ht, htbuf⟩ := processLoop_twoEnds hx hy hnl h0
    (hbuf.trans (List.append_assoc (x ++ y) _ _)) hcur
  have hproc : processUserInput (x ++ y ++ [newline, newline]) createUserbuf = some (t, calls) := by
    rw [processUserInput, if_neg (by decide), dif_pos hfit, hrun]
  exact ⟨t, calls, rest, congrArg (Option.map _) hproc, ht, htbuf⟩

theorem stale_twoEnds {t : UserIobuf} {y rest : List UInt8} (hy : y.length = 8187)
    (ht : t.cur = 0) (hbuf : t.buf = 0 :: (y ++ 0 :: newline :: 0 :: rest)) :
    newline ∈ t.stale 8189 := by
  have hdrop : (y ++ 0 :: newline :: 0 :: rest).drop 8188 = newline :: 0 :: rest := by
    rw [show 8188 = y.length + 1 by rw [hy], List.drop_length_add_append]
    rfl
  have hcstr : cstr (newline :: 0 :: rest) = [newline] := cstr_append (d := [newline]) (by decide)
  rw [UserIobuf.stale, ht, hbuf]
  change newline ∈ cstr ((y ++ 0 :: newline :: 0 :: rest).drop 8188)
  rw [hdrop, hcstr]
  exact List.mem_singleton_self newline

theorem not_clean_of_twoEnds {x y z : List UInt8} (hx : x.length = 2) (hy : y.length = 8187)
    (hz : z.length = 8189) (hnl : newline ∉ x ++ y) (h0 : 0 ∉ x ++ y) :
    ReadsFit start [x ++ y ++ [newline, newline], z] ∧
      ((∃ s, exec next start [x ++ y ++ [newline, newline], z] = some s) →
        ¬ EachStep next Clean start [x ++ y ++ [newline, newline], z]) := by
  obtain ⟨t, calls, rest, hnext, ht, hbuf⟩ := next_twoEnds hx hy hnl h0
  refine ⟨⟨fun _ => ?_, fun s hs => ?_⟩, fun ⟨s, hs⟩ hclean => ?_⟩
  · change 1 ≤ (x ++ y ++ [newline, newline]).length ∧
      0 + (x ++ y ++ [newline, newline]).length ≤ 8191
    simp [hx, hy]
  · rw [hnext, Option.some.injEq] at hs
    subst hs
    refine ⟨fun _ => ?_, fun _ _ => trivial⟩
    change 1 ≤ z.length ∧ t.cur.toNat + z.length ≤ userbufSize
    rw [ht, hz]
    decide
  · rw [exec_step hnext, exec_cons_eq_some] at hs
    obtain ⟨u, hu, -⟩ := hs
    have hstale := ((each_step hu).mp ((each_step hnext).mp hclean).2).1
    unfold Clean at hstale
    rw [hz] at hstale
    exact hstale (stale_twoEnds hy ht hbuf)

/-- After these two reads the newline that was left standing ends a line that was never received. -/
theorem lines_not_handled :
    let inputs := [List.replicate 8189 97 ++ [newline, newline], List.replicate 8189 99]
    (ReadsFit start inputs ∧ 0 ∉ inputs.flatten ∧
      (∀ line ∈ lines newline inputs.flatten, line.length < userbufSize - 1) ∧
      (unended newline inputs.flatten).length < userbufSize - 1) ∧
    ¬ ((∃ s, exec next start inputs = some s) ∧ Always next Exact start inputs ∧
      EachStep next Counts start inputs) := by
  have hsplit : List.replicate 2 (97 : UInt8) ++ List.replicate 8187 97 = List.replicate 8189 97 :=
    List.replicate_append_replicate
  have hne : ∀ (c d : UInt8) (n : Nat), c ≠ d → c ∉ List.replicate n d := fun c d n hcd hc =>
    hcd (List.eq_of_mem_replicate hc)
  have ha : (List.replicate 8189 (97 : UInt8)).length = 8189 := List.length_replicate
  have hc : (List.replicate 8189 (99 : UInt8)).length = 8189 := List.length_replicate
  have hnla := hne newline 97 8189 (by decide)
  have hnlc := hne newline 99 8189 (by decide)
  have h0a := hne 0 97 8189 (by decide)
  have h0c := hne 0 99 8189 (by decide)
  obtain ⟨hreads, hclean⟩ := not_clean_of_twoEnds (x := List.replicate 2 97)
    (y := List.replicate 8187 97) List.length_replicate List.length_replicate hc
    (by rwa [hsplit]) (by rwa [hsplit])
  rw [hsplit] at hreads hclean
  generalize List.replicate 8189 (97 : UInt8) = a at *
  generalize List.replicate 8189 (99 : UInt8) = c at *
  -- the long line, the empty one and the tail
  have hflat : [a ++ [newline, newline], c].flatten = a ++ newline :: ([] ++ newline :: c) := by
    simp
  have h0 : 0 ∉ [a ++ [newline, newline], c].flatten := by
    simp [h0a, h0c, newline]
  have hlines : ∀ line ∈ lines newline [a ++ [newline, newline], c].flatten,
      line.length < userbufSize - 1 := by
    rw [hflat, lines_cons hnla, lines_cons List.not_mem_nil, lines_of_not_mem hnlc]
    intro line hline
    rcases List.mem_cons.mp hline with rfl | hline
    · rw [ha]
      decide
    · rw [List.mem_singleton.mp hline]
      decide
  have htail : (unended newline [a ++ [newline, newline], c].flatten).length < userbufSize - 1 := by
    rw [hflat, unended_cons hnla, unended_cons List.not_mem_nil, unended_of_not_mem hnlc, hc]
    decide
  refine ⟨⟨hreads, h0, hlines, htail⟩, fun hall => hclean hall.1 ?_⟩
  exact (run_iff _ ready_start hreads h0 hlines htail).mp hall

end Session

end P2P
