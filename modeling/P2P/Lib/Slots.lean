import Mathlib.Tactic.Common

/-!
# Tables of pointers

`Slots α n` is a C array `α* a[n]`: each slot holds an object or `NULL`.
`read` is what `a[i]` points at, `none` for `NULL` and outside the array;
`write` is the assignment `a[i] = p`, `none` when it lands outside the array.
The lemmas are the frame of an assignment: the slot written reads back, every
other slot is untouched.
-/

namespace P2P.Lib

/-- An array of `n` pointers to objects of type `α`. -/
structure Slots (α : Type*) (n : Nat) where
  cells : Vector (Option α) n
  deriving DecidableEq

namespace Slots

variable {α : Type*} {n : Nat}

/-- All slots `NULL`. -/
def empty (α : Type*) (n : Nat) : Slots α n := ⟨Vector.replicate n none⟩

/-- The object slot `i` points at. -/
def read (b : Slots α n) (i : Int) : Option α :=
  if 0 ≤ i then b.cells[i.toNat]?.join else none

/-- `a[i]` in an expression: `none` outside the array. -/
def load (b : Slots α n) (i : Int) : Option (Option α) :=
  if 0 ≤ i ∧ i < n then some (b.read i) else none

/-- Store a pointer in slot `i`. -/
def write (b : Slots α n) (i : Int) (p : Option α) : Option (Slots α n) :=
  if h : 0 ≤ i ∧ i < n then some ⟨b.cells.set i.toNat p (by omega)⟩ else none

@[simp] theorem read_empty (i : Int) : (empty α n).read i = none := by
  by_cases h : i.toNat < n <;> simp [read, empty, h]

theorem load_eq (b : Slots α n) {i : Int} (h0 : 0 ≤ i) (h1 : i < n) : b.load i = some (b.read i) :=
  if_pos ⟨h0, h1⟩

theorem write_range {b c : Slots α n} {i : Int} {p : Option α} (h : b.write i p = some c) :
    0 ≤ i ∧ i < n := by
  by_contra hn
  simp [write, hn] at h

theorem exists_write (b : Slots α n) {i : Int} (h0 : 0 ≤ i) (h1 : i < n) (p : Option α) :
    ∃ c, b.write i p = some c := by
  simp [write, h0, h1]

/-- **Frame of an assignment.** Slot `i` reads what was stored, the rest is as before. -/
theorem read_write {b c : Slots α n} {i : Int} {p : Option α} (h : b.write i p = some c) (j : Int) :
    c.read j = if j = i then p else b.read j := by
  have hi := write_range h
  simp only [write, hi, and_self, ↓reduceDIte, Option.some.injEq] at h
  subst h
  by_cases hj : 0 ≤ j
  · have hij : i.toNat = j.toNat ↔ j = i := by omega
    simp only [read, hj, ↓reduceIte, Vector.getElem?_set, hij]
    split <;> rfl
  · have hji : j ≠ i := fun e => hj (e ▸ hi.1)
    simp [read, hj, hji]

/-! ## Updating objects in place -/

/-- The tables point at objects in the same slots, each changed by `f`. -/
def Mapped (b c : Slots α n) (f : Int → α → α) : Prop :=
  ∀ j, c.read j = (b.read j).map (f j)

theorem mapped_write {b c : Slots α n} {i : Int} {x : α} {f : α → α} (hx : b.read i = some x)
    (h : b.write i (some (f x)) = some c) : Mapped b c fun j y => if j = i then f y else y := by
  intro j
  rw [read_write h]
  by_cases hj : j = i
  · subst hj
    simp [hx]
  · simp [hj]

theorem Mapped.read_some {b c : Slots α n} {f : Int → α → α} (h : Mapped b c f) {j : Int} {y : α}
    (hy : c.read j = some y) : ∃ x, b.read j = some x ∧ y = f j x := by
  rw [h j, Option.map_eq_some_iff] at hy
  obtain ⟨x, hx, rfl⟩ := hy
  exact ⟨x, hx, rfl⟩

end Slots

end P2P.Lib
