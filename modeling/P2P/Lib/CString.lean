import Mathlib.Data.List.TakeWhile

/-!
# C strings and blocks of memory

A block of memory is the list of its bytes, and a C string in it ends before its first zero.
-/

namespace P2P.Lib

/-- The byte `'\n'`. -/
def newline : UInt8 := 10

/-- The C string at the start of a block. -/
def cstr (mem : List UInt8) : List UInt8 := mem.takeWhile (· ≠ 0)

/-- The offset `strchr` finds: `none` where the search runs behind the block, `some none` for
`NULL`. -/
def strchr (c : UInt8) : List UInt8 → Option (Option Nat)
  | [] => none
  | b :: mem =>
    if b = c then some (some 0)
    else if b = 0 then some none
    else (strchr c mem).map (Option.map (· + 1))

/-- The block after bytes are stored from an offset on. -/
def store (mem : List UInt8) (off : Nat) (bytes : List UInt8) : List UInt8 :=
  mem.take off ++ bytes ++ mem.drop (off + bytes.length)

def memmove (mem : List UInt8) (dst src n : Nat) : List UInt8 :=
  store mem dst ((mem.drop src).take n)

variable {c : UInt8} {d mem line bytes : List UInt8} {off i : Nat}

@[simp] theorem cstr_append (h : 0 ∉ d) : cstr (d ++ 0 :: mem) = d := by
  have hd : ∀ b ∈ d, decide (b ≠ 0) = true := fun b hb =>
    decide_eq_true fun h0 => h (h0 ▸ hb)
  rw [cstr, List.takeWhile_append_of_pos hd, List.takeWhile_cons_of_neg (by simp),
    List.append_nil]

theorem zero_not_mem_cstr (mem : List UInt8) : 0 ∉ cstr mem := by
  intro h
  exact absurd (List.mem_takeWhile_imp h) (by simp)

theorem exists_cstr (h : 0 ∈ mem) : ∃ rest, mem = cstr mem ++ 0 :: rest := by
  obtain ⟨d, rest, rfl, hd⟩ := List.eq_append_cons_of_mem h
  exact ⟨rest, by rw [cstr_append hd]⟩

theorem strchr_of_not_mem (hc : c ≠ 0) (h : c ∉ d) (h0 : 0 ∉ d) :
    strchr c (d ++ 0 :: mem) = some none := by
  induction d with
  | nil => rw [List.nil_append, strchr, if_neg hc.symm, if_pos rfl]
  | cons b d ih =>
    rw [List.mem_cons, not_or] at h h0
    rw [List.cons_append, strchr, if_neg (Ne.symm h.1), if_neg (Ne.symm h0.1), ih h.2 h0.2]
    rfl

theorem strchr_append_cons (h : c ∉ line) (h0 : 0 ∉ line) :
    strchr c (line ++ c :: mem) = some (some line.length) := by
  induction line with
  | nil => rw [List.nil_append, strchr, if_pos rfl, List.length_nil]
  | cons b line ih =>
    rw [List.mem_cons, not_or] at h h0
    rw [List.cons_append, strchr, if_neg (Ne.symm h.1), if_neg (Ne.symm h0.1), ih h.2 h0.2]
    rfl

theorem length_store (h : off + bytes.length ≤ mem.length) :
    (store mem off bytes).length = mem.length := by
  simp only [store, List.length_append, List.length_take, List.length_drop]
  omega

theorem store_getElem? (h : off ≤ mem.length) (hi : off + bytes.length ≤ i) :
    (store mem off bytes)[i]? = mem[i]? := by
  have hlen : (mem.take off ++ bytes).length = off + bytes.length := by
    rw [List.length_append, List.length_take, Nat.min_eq_left h]
  rw [store, List.getElem?_append_right (hlen ▸ hi), hlen, List.getElem?_drop,
    Nat.add_sub_cancel' hi]

theorem store_append (d bytes mem : List UInt8) :
    store (d ++ mem) d.length bytes = d ++ bytes ++ mem.drop bytes.length := by
  rw [store, List.take_left, List.drop_length_add_append]

end P2P.Lib
