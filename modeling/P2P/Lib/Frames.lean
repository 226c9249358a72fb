import Mathlib.Tactic.Common

/-!
# Length-prefixed framing

A stream is cut into frames by a length that the frame itself carries in its
header: `len l` is the length field of the frame `l` starts with, `hdr` the
number of elements that must be there before the field is read.

`Framed hdr len l fs r`: `l` is the frames `fs` followed by the incomplete
header `r`. Every frame is at least a header long and lies inside `l`.
`framed_flatten`: frames that carry their own lengths are cut out of a stream as
they were put into it.
-/

namespace P2P.Lib

variable {α : Type*}

/-- The frames of a stream and what is left of it. -/
inductive Framed (hdr : Nat) (len : List α → Nat) : List α → List (List α) → List α → Prop where
  | rest {l : List α} : l.length < hdr → Framed hdr len l [] l
  | frame {l r : List α} {fs : List (List α)} : hdr ≤ len l → len l ≤ l.length →
      Framed hdr len (l.drop (len l)) fs r → Framed hdr len l (l.take (len l) :: fs) r

namespace Framed

variable {hdr : Nat} {len : List α → Nat} {l r : List α} {fs : List (List α)}

theorem rest_lt (h : Framed hdr len l fs r) : r.length < hdr := by
  induction h with
  | rest h => exact h
  | frame _ _ _ ih => exact ih

end Framed

/-- **A stream of frames** that carry their lengths is cut into them. -/
theorem framed_flatten {hdr : Nat} {len : List α → Nat} {r : List α} (hr : r.length < hdr)
    {fs : List (List α)} (hfs : ∀ f ∈ fs, hdr ≤ f.length ∧ ∀ rest, len (f ++ rest) = f.length) :
    Framed hdr len (fs.flatten ++ r) fs r := by
  induction fs with
  | nil => exact .rest hr
  | cons f fs ih =>
    obtain ⟨hlong, hlen⟩ := hfs f List.mem_cons_self
    have hrest := ih fun g hg => hfs g (List.mem_cons_of_mem f hg)
    rw [List.flatten_cons, List.append_assoc]
    have hl := hlen (fs.flatten ++ r)
    have htake : (f ++ (fs.flatten ++ r)).take (len (f ++ (fs.flatten ++ r))) = f := by
      rw [hl, List.take_left]
    have hframe : Framed hdr len (f ++ (fs.flatten ++ r))
        ((f ++ (fs.flatten ++ r)).take (len (f ++ (fs.flatten ++ r))) :: fs) r := by
      refine .frame (by rw [hl]; exact hlong) ?_ ?_
      · rw [hl, List.length_append]
        exact Nat.le_add_right ..
      · rwa [hl, List.drop_left]
    rwa [htake] at hframe

end P2P.Lib
