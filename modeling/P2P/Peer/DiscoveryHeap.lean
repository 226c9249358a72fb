import P2P.Peer.Discovery
import P2P.Peer.DownloadHeap

/-!
# Asking, in memory

`WhoHas_sender` on the lists of `Download_conn` in memory. It only reads them: what it broadcasts is
what it broadcasts for the lists (`Mem.whoHasSender_eq`).
-/

namespace P2P

open Lib

namespace Mem

/-! ## The sender -/

/-- The test of `form_WhoHas`: the chunk is in none of the three lists. -/
def untracked (down : Downloads) (hash : Hash) : Option Bool :=
  (findNode down.heap down.getTosendQuene hash).bind fun tosend =>
    if tosend ≠ none then some false
    else (findNode down.heap down.getSentList hash).bind fun sent =>
      if sent ≠ none then some false
      else (findNode down.heap down.downloadingList hash).map fun loading => loading.isNone

/-- The loop of `form_WhoHas` with `count` hashes put in. -/
def whoHasLoop (down : Downloads) : Nat → Nat → Option Nat → Option (List Hash × Option Nat)
  | 0, _, _ => none
  | _ + 1, _, none => some ([], none)
  | n + 1, count, some curr =>
    if count < maxHashnumPerPack then
      (down.heap.read curr).bind fun node =>
        (untracked down node.data.hash).bind fun put =>
          if put then
            (whoHasLoop down n (count + 1) node.next).map fun r => (node.data.hash :: r.1, r.2)
          else whoHasLoop down n count node.next
    else some ([], some curr)

/-- `form_WhoHas`. -/
def formWhoHas (needlist : Option Nat) (down : Downloads) : Option (Packet × Option Nat) :=
  (whoHasLoop down (down.heap.size + 1) 0 needlist).map fun r => (hashPack 0 r.1, r.2)

/-- The loop of `WhoHas_sender`: the packets broadcast. -/
def whoHasSendLoop (down : Downloads) : Nat → Option Nat → Option (List Packet)
  | 0, _ => none
  | _ + 1, none => some []
  | n + 1, some curr =>
    (formWhoHas (some curr) down).bind fun r =>
      if r.1.chunkhashNum = 0 then whoHasSendLoop down n r.2
      else (sendPack r.1).bind fun m => (whoHasSendLoop down n r.2).map (m :: ·)

/-- `WhoHas_sender`. -/
def whoHasSender (needlist : Option Nat) (down : Downloads) : Option (List Packet) :=
  whoHasSendLoop down (down.heap.size + 1) needlist

/-! ## What is broadcast -/

variable {down : Downloads} {need queue sent load pre todo : List (Nat × HashChunk)}

theorem untracked_eq (hs : down.Owns need queue sent load) (hash : Hash) :
    untracked down hash = some ((down.conn need queue sent load).untracked hash) := by
  unfold untracked DownloadConn.untracked
  simp only [Downloads.conn]
  rcases findNode_cases hs.holds.getTosendQuene hash with ⟨hq, hq'⟩ | ⟨_, b, y, _, -, hq, hq'⟩
  · rcases findNode_cases hs.holds.getSentList hash with ⟨hst, hst'⟩ | ⟨_, b, y, _, -, hst, hst'⟩
    · rcases findNode_cases hs.holds.downloadingList hash with ⟨hl, hl'⟩ | ⟨_, b, y, _, -, hl, hl'⟩
      · simp [hq, hq', hst, hst', hl, hl']
      · simp [hq, hq', hst, hst', hl, hl']
    · simp [hq, hq', hst, hst']
  · simp [hq, hq']

theorem whoHasLoop_eq : ∀ {todo pre : List (Nat × HashChunk)} {n : Nat} (count : Nat),
    down.Owns (pre ++ todo) queue sent load → todo.length < n →
    ∃ done rest, todo = done ++ rest ∧
      whoHasLoop down n count (todo.head?.map Prod.fst) =
        some ((P2P.whoHasLoop (down.conn (pre ++ todo) queue sent load) count (contents todo)).1,
          rest.head?.map Prod.fst) ∧
      (P2P.whoHasLoop (down.conn (pre ++ todo) queue sent load) count (contents todo)).2 =
        contents rest := by
  intro todo
  induction todo with
  | nil =>
    intro pre n count hs hn
    cases n with
    | zero => cases hn
    | succ n => exact ⟨[], [], rfl, rfl, rfl⟩
  | cons e todo ih =>
    intro pre n count hs hn
    obtain ⟨a, x⟩ := e
    cases n with
    | zero => cases hn
    | succ n =>
      have hlist : contents ((a, x) :: todo) = x :: contents todo := rfl
      have hn' : todo.length < n := by
        rw [List.length_cons] at hn
        omega
      have hnode := hs.holds.needlist.next
      have hput := untracked_eq hs x.hash
      rw [List.append_cons] at hs
      have hrest := fun count => ih count hs hn'
      rw [← List.append_cons] at hrest
      rw [hlist, P2P.whoHasLoop, List.head?_cons, Option.map_some, whoHasLoop]
      split
      case isFalse => exact ⟨[], (a, x) :: todo, rfl, rfl, rfl⟩
      rw [hnode, Option.bind_some, hput, Option.bind_some]
      split
      · obtain ⟨done, rest, rfl, hrun, htail⟩ := hrest (count + 1)
        exact ⟨(a, x) :: done, rest, rfl, by rw [hrun, Option.map_some], htail⟩
      · obtain ⟨done, rest, rfl, hrun, htail⟩ := hrest count
        exact ⟨(a, x) :: done, rest, rfl, hrun, htail⟩

theorem whoHasSendLoop_eq : ∀ {n m : Nat} {todo pre : List (Nat × HashChunk)},
    down.Owns (pre ++ todo) queue sent load → todo.length < n → todo.length ≤ m →
    whoHasSendLoop down n (todo.head?.map Prod.fst) =
      P2P.whoHasSendLoop (down.conn (pre ++ todo) queue sent load) m (contents todo) := by
  intro n
  induction n with
  | zero => exact fun _ hn => absurd hn (Nat.not_lt_zero _)
  | succ n ih =>
    intro m todo pre hs hn hm
    cases todo with
    | nil =>
      cases m <;> rfl
    | cons e todo =>
      obtain ⟨a, x⟩ := e
      rw [List.length_cons] at hn hm
      obtain ⟨m, rfl⟩ : ∃ k, m = k + 1 := ⟨m - 1, by omega⟩
      have hsize := hs.holds.needlist.length_le
      rw [List.length_append, List.length_cons] at hsize
      obtain ⟨done, rest, heq, hrun, htail⟩ :=
        whoHasLoop_eq (n := down.heap.size + 1) 0 hs (by rw [List.length_cons]; omega)
      -- a pass takes a node or more
      have hlen : rest.length ≤ todo.length := by
        have hpass := whoHasLoop_progress (down.conn (pre ++ (a, x) :: todo) queue sent load) x
          (contents todo)
        have hcons : contents ((a, x) :: todo) = x :: contents todo := rfl
        rw [← hcons, htail] at hpass
        simpa [contents] using hpass
      have hform : formWhoHas (some a) down =
          some (hashPack 0 (P2P.whoHasLoop (down.conn (pre ++ (a, x) :: todo) queue sent load) 0
            (contents ((a, x) :: todo))).1, rest.head?.map Prod.fst) := by
        rw [formWhoHas]
        exact congrArg (Option.map _) hrun
      rw [heq, ← List.append_assoc] at hs
      have hrest := ih (m := m) hs (by omega) (by omega)
      rw [List.append_assoc, ← heq] at hrest
      rw [List.head?_cons, Option.map_some, whoHasSendLoop, hform, Option.bind_some, hrest]
      have hcons : contents ((a, x) :: todo) = x :: contents todo := rfl
      rw [← htail, hcons, P2P.whoHasSendLoop]
      rfl

theorem whoHasSender_eq (hs : down.Owns need queue sent load) :
    whoHasSender down.needlist down =
      P2P.whoHasSender (contents need) (down.conn need queue sent load) := by
  have hall : down.Owns ([] ++ need) queue sent load := hs
  have hsize : need.length ≤ down.heap.size := hs.holds.needlist.length_le
  rw [whoHasSender, P2P.whoHasSender, hs.holds.needlist.start]
  exact whoHasSendLoop_eq hall (by omega) (by simp [contents])

end Mem

end P2P
