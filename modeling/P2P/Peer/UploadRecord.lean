import P2P.Peer.UploadHistory

/-!
# What is recorded as uploaded

An upload is moved to `uploaded_list` when `LPA == LPR - 1`. A window that `create_SW` made
and `send_onechunk` could not fill already satisfies that, so a failed upload is recorded
by the next sweep.

`recorded_real_iff`: only whole chunks, acknowledged up to their last packet, are
recorded, and no GET is refused for a failed upload, in exactly the runs in which no
failed upload is swept and none is met by a GET for its chunk.
-/

namespace P2P

open Lib

/-- The window is empty: `send_onechunk` failed (`UploadConn.sendOnechunk_cases`). -/
def HashChunk.Failed (x : HashChunk) : Prop := ∃ w, x.congWin = some w ∧ w.LPR = 1

/-- The upload side and the ACKs each upload has received since it was started. -/
structure HeardUpload where
  up : UploadConn
  heard : List ((SockAddr × Hash) × Nat)

namespace HeardUpload

/-- An ACK is noted for the connection that gets it; a new upload has received none. -/
def note (s : HeardUpload) : UploadEvent → UploadConn → List ((SockAddr × Hash) × Nat)
  | .ack pack addr _, _ =>
    match findNodeByAddr s.up.uploadingList addr with
    | some (_, x) => (x.target, pack.ackNum.toNat) :: s.heard
    | none => s.heard
  | .get .., up =>
    if s.up.active.length < up.active.length then
      s.heard.filter fun r => some r.1 ≠ up.active.head?
    else s.heard
  | .sweep .., _ => s.heard
  | .abort _, _ => s.heard

def next (fl : Rounding) (haslist : List HashChunk) (s : HeardUpload) (e : UploadEvent) :
    Option HeardUpload :=
  (s.up.next fl haslist e).map fun up => ⟨up, s.note e up⟩

def start (config : Config) : HeardUpload := ⟨initUploadConn config, []⟩

/-- What enters `uploaded_list` is a whole chunk with an ACK of its last packet, and no GET meets a
failed upload of its chunk to its sender, whether a slot is free or not: in `uploading_list` it
keeps its slot and refuses the GET, in `uploaded_list` it counts as finished. -/
structure RecordsReal (s : HeardUpload) (e : UploadEvent) (t : HeardUpload) : Prop where
  entered : ∀ x, t.up.uploadedList = x :: s.up.uploadedList →
    ∃ w, x.congWin = some w ∧ w.LPR = 513 ∧ w.LPA = 512 ∧ (x.target, 512) ∈ s.heard
  refuses : ∀ file now pack addr hash, e = .get file now pack addr →
    payloadHash pack 0 = some hash → ∀ k x, x.target = (addr, hash) → x.Failed →
      findNodeByAddr s.up.uploadingList addr ≠ some (k, x) ∧
      findNodeByAddr s.up.uploadedList addr ≠ some (k, x)

/-- No failed upload is visited by the sweep, and none is still in `uploading_list` when a GET for
its chunk comes from its peer. -/
structure MeetsNoFailed (s : HeardUpload) (e : UploadEvent) (_ : HeardUpload) : Prop where
  swept : ∀ time now₁ now₂ k x, e = .sweep time now₁ now₂ k →
    s.up.uploadingList[k]? = some x → ¬ x.Failed
  asked : ∀ file now pack addr hash, e = .get file now pack addr →
    payloadHash pack 0 = some hash →
    ∀ k x, findNodeByAddr s.up.uploadingList addr = some (k, x) → x.target = (addr, hash) →
      ¬ x.Failed

/-! ## The windows of a run -/

/-- The window is in order, empty or filled with a chunk, and `LPA` is the number of an ACK that was
received for it. -/
def Tracks (heard : List ((SockAddr × Hash) × Nat)) (x : HashChunk) : Prop :=
  ∃ w, x.congWin = some w ∧ w.Inv ∧ (w.LPR = 1 ∨ w.LPR = 513) ∧
    (w.LPA = 0 ∨ ∃ n : Nat, w.LPA = n ∧ (x.target, n) ∈ heard)

/-- What every event keeps. -/
structure AllTracked (s : HeardUpload) : Prop where
  distinct : s.up.Distinct
  uploads : ∀ x ∈ s.up.uploadingList, Tracks s.heard x

section
variable {fl : Rounding} {haslist : List HashChunk} {s t : HeardUpload} {e : UploadEvent}
  {x y : HashChunk} {w w' : Window} {heard heard' : List ((SockAddr × Hash) × Nat)}

theorem next_eq (h : s.next fl haslist e = some t) :
    s.up.next fl haslist e = some t.up ∧ t.heard = s.note e t.up := by
  unfold next at h
  rw [Option.map_eq_some_iff] at h
  obtain ⟨up, hup, rfl⟩ := h
  exact ⟨hup, rfl⟩

theorem Tracks.move {we : WindowEvent} (h : Tracks heard x) (hw : x.congWin = some w)
    (hnext : w.next fl we = some w') (hkey : y.target = x.target) (hw' : y.congWin = some w')
    (hsub : heard ⊆ heard')
    (hack : ∀ pack, we = .ack pack → (x.target, pack.ackNum.toNat) ∈ heard') : Tracks heard' y := by
  obtain ⟨v, hv, hinv, hlpr, hlpa⟩ := h
  cases hw.symm.trans hv
  have hmove := Window.next_cases hinv hnext
  refine ⟨w', hw', hmove.inv hinv, by rw [hmove.sameData.lpr]; exact hlpr, ?_⟩
  rw [hkey]
  rcases hmove.lpa with ⟨pack, hpack, heq⟩ | heq
  · exact .inr ⟨_, heq, hack pack hpack⟩
  · rcases hlpa with h0 | ⟨n, hn, hmem⟩
    · exact .inl (heq.trans h0)
    · exact .inr ⟨n, heq.trans hn, hsub hmem⟩

theorem Tracks.mono (h : Tracks heard x)
    (hsub : ∀ n, (x.target, n) ∈ heard → (x.target, n) ∈ heard') :
    Tracks heard' x := by
  obtain ⟨w, hw, hinv, hlpr, hlpa⟩ := h
  exact ⟨w, hw, hinv, hlpr, hlpa.imp id fun ⟨n, hn, hmem⟩ => ⟨n, hn, hsub n hmem⟩⟩

theorem Tracks.sentFrom {time : Nat → Int} (h : Tracks heard x) (hw : x.congWin = some w)
    (hsent : UploadConn.SentFrom fl time w w') : Tracks heard { x with congWin := some w' } := by
  rcases hsent with ⟨-, hnext⟩ | ⟨-, rfl⟩
  · exact h.move hw hnext rfl rfl (List.Subset.refl _) fun _ he => nomatch he
  · obtain ⟨v, hv, hrest⟩ := h
    rw [hw, Option.some.injEq] at hv
    subst hv
    exact ⟨_, rfl, hrest⟩

theorem Tracks.lpr_sentFrom {time : Nat → Int} (h : Tracks heard x) (hw : x.congWin = some w)
    (hsent : UploadConn.SentFrom fl time w w') : w'.LPR = w.LPR := by
  rcases hsent with ⟨-, hnext⟩ | ⟨-, rfl⟩
  · obtain ⟨v, hv, hinv, -⟩ := h
    cases hw.symm.trans hv
    exact (Window.next_cases hinv hnext).sameData.lpr
  · rfl

theorem AllTracked.set (hs : s.AllTracked) {k : Nat} (hy : Tracks heard' y)
    (hsub : s.heard ⊆ heard') : ∀ x ∈ s.up.uploadingList.set k y, Tracks heard' x := by
  intro x hx
  rcases List.mem_or_eq_of_mem_set hx with hold | rfl
  · exact (hs.uploads x hold).mono fun _ hmem => hsub hmem
  · exact hy

theorem AllTracked.next (hs : s.AllTracked) (h : s.next fl haslist e = some t) : t.AllTracked := by
  obtain ⟨hup, hheard⟩ := next_eq h
  refine ⟨UploadConn.next_distinct hs.distinct hup, ?_⟩
  rw [hheard]
  generalize t.up = up' at hup ⊢
  cases UploadConn.next_effect hup with
  | ignored hl hd =>
    have hact : up'.active = s.up.active := by rw [UploadConn.active, hl]; rfl
    rw [note, hact, if_neg (lt_irrefl _), hl]
    exact hs.uploads
  | @started file now pack addr _ hash x sw r hfree hhash hfresh hkey hw hsend hl hd =>
    have hact : up'.active = x.target :: s.up.active := by
      rw [UploadConn.active, hl, List.map_cons]
      rfl
    rw [note, hact, if_pos (by rw [List.length_cons]; exact Nat.lt_succ_self _), hl]
    intro y hy
    rcases List.mem_cons.mp hy with rfl | hold
    · obtain ⟨w, r', hrun, hinv, hlpa, -, hcase⟩ := UploadConn.sendOnechunk_cases file hash addr
      cases hsend.symm.trans hrun
      exact ⟨sw, hw, hinv, hcase.imp (·.2.2) (·.2.2), .inl hlpa⟩
    · -- the other connections are to other ports
      refine (hs.uploads y hold).mono fun n hmem => List.mem_filter.mpr ⟨hmem, ?_⟩
      have hport : y.target ≠ x.target := by
        intro heq
        refine (UploadConn.free_iff.mp hfree).2
          (List.mem_map.mpr ⟨addr, List.mem_map.mpr ⟨y, hold, ?_⟩, rfl⟩)
        exact congrArg Prod.fst (heq.trans hkey)
      simpa using hport
  | unknown hnone =>
    rw [note, hnone]
    exact hs.uploads
  | @acked pack addr now _ k x y w w' hfind hw hnext hkey hw' hl hd =>
    rw [note, hfind, hl]
    have hx := hs.uploads x (List.mem_of_getElem? (findNodeByAddr_spec hfind).1)
    refine hs.set (hx.move hw hnext hkey hw' (List.subset_cons_self _ _) ?_)
      (List.subset_cons_self _ _)
    intro pack' he
    cases he
    exact List.mem_cons_self
  | finished hx _ _ _ _ _ hl hd =>
    rw [note, hl]
    exact fun y hy => hs.uploads y (List.mem_of_mem_eraseIdx hy)
  | @swept time now₁ now₂ _ k x y w w₁ w' hx hw hfrom _ hnext hkey hw' hl hd =>
    rw [note, hl]
    have hmid := (hs.uploads x (List.mem_of_getElem? hx)).sentFrom hw hfrom
    refine hs.set (hmid.move rfl hnext hkey hw' (List.Subset.refl _) ?_) (List.Subset.refl _)
    intro pack he
    cases he
  | gaveUp hx _ _ _ hl hd =>
    rw [note, hl]
    exact fun y hy => hs.uploads y (List.mem_of_mem_eraseIdx hy)
  | aborted hx hl hd =>
    rw [note, hl]
    exact fun y hy => hs.uploads y (List.mem_of_mem_eraseIdx hy)

/-! ## What enters the list -/

theorem uploadedList_cases {up up' : UploadConn} (hup : up.next fl haslist e = some up') :
    up'.uploadedList = up.uploadedList ∨ ∃ x, up'.uploadedList = x :: up.uploadedList := by
  cases UploadConn.next_effect hup with
  | ignored _ hd => exact .inl hd
  | started _ _ _ _ _ _ _ hd => exact .inl hd
  | unknown => exact .inl rfl
  | acked _ _ _ _ _ _ hd => exact .inl hd
  | finished _ _ _ _ _ _ _ hd => exact .inr ⟨_, hd⟩
  | swept _ _ _ _ _ _ _ _ hd => exact .inl hd
  | gaveUp _ _ _ _ _ hd => exact .inl hd
  | aborted _ _ hd => exact .inl hd

/-- Only a visit of the sweep to a complete window adds to `uploaded_list`. -/
theorem entered_cases {up up' : UploadConn} (hup : up.next fl haslist e = some up')
    (hx : up'.uploadedList = x :: up.uploadedList) :
    ∃ time now₁ now₂ k y w w₁, e = .sweep time now₁ now₂ k ∧ up.uploadingList[k]? = some y ∧
      y.congWin = some w ∧ UploadConn.SentFrom fl time w w₁ ∧ w₁.LPA = w₁.LPR - 1 ∧
      x.target = y.target ∧ x.congWin = some w₁ := by
  have hne : up'.uploadedList ≠ up.uploadedList := by
    rw [hx]
    exact List.cons_ne_self _ _
  cases UploadConn.next_effect hup with
  | ignored _ hd => exact absurd hd hne
  | started _ _ _ _ _ _ _ hd => exact absurd hd hne
  | unknown => exact absurd rfl hne
  | acked _ _ _ _ _ _ hd => exact absurd hd hne
  | finished hy hw hfrom hdone hkey hw₁ hl hd =>
    rw [hd, List.cons.injEq] at hx
    obtain ⟨rfl, -⟩ := hx
    exact ⟨_, _, _, _, _, _, _, rfl, hy, hw, hfrom, hdone, hkey, hw₁⟩
  | swept _ _ _ _ _ _ _ _ hd => exact absurd hd hne
  | gaveUp _ _ _ _ _ hd => exact absurd hd hne
  | aborted _ _ hd => exact absurd hd hne

/-- **A failed upload that is swept is recorded.** -/
theorem meets_of_recordsReal (hs : s.AllTracked) (h : s.next fl haslist e = some t)
    (hreal : s.RecordsReal e t) : s.MeetsNoFailed e t := by
  obtain ⟨hup, -⟩ := next_eq h
  constructor
  · rintro time now₁ now₂ k x rfl hx ⟨w, hw, hlpr⟩
    obtain ⟨v, hv, hinv, -⟩ := hs.uploads x (List.mem_of_getElem? hx)
    cases hw.symm.trans hv
    have h0 := hinv.lpa_nonneg
    have hle := hinv.lpa_le
    have hlt := hinv.lps_lt
    have hrun := UploadConn.sweepUpload_of_complete fl time now₁ now₂ hx hw (by omega)
      (by omega)
    rw [UploadConn.next, hrun, Option.some.injEq] at hup
    obtain ⟨w', hw', hfull, -⟩ := hreal.entered x (by rw [← hup])
    cases hw.symm.trans hw'
    omega
  · intro file now pack addr hash he hhash k x hfind hkey hfail
    exact (hreal.refuses file now pack addr hash he hhash k x hkey hfail).1 hfind

/-- **What is recorded was uploaded**, where no failed upload is met. -/
theorem recordsReal_of_meets (hs : s.AllTracked) (hclean : ∀ x ∈ s.up.uploadedList, ¬ x.Failed)
    (h : s.next fl haslist e = some t) (hmeets : s.MeetsNoFailed e t) :
    (∀ x ∈ t.up.uploadedList, ¬ x.Failed) ∧ s.RecordsReal e t := by
  obtain ⟨hup, -⟩ := next_eq h
  have hentered : ∀ x, t.up.uploadedList = x :: s.up.uploadedList →
      ∃ w, x.congWin = some w ∧ w.LPR = 513 ∧ w.LPA = 512 ∧ (x.target, 512) ∈ s.heard := by
    intro x hx
    obtain ⟨time, now₁, now₂, k, y, w, w₁, rfl, hy, hw, hfrom, hdone, hkey, hw₁⟩ :=
      entered_cases hup hx
    have hy' := hs.uploads y (List.mem_of_getElem? hy)
    have hlpr₁ := hy'.lpr_sentFrom hw hfrom
    obtain ⟨v, hv, hinv, hlpr, hlpa⟩ := hy'.sentFrom hw hfrom
    cases hv
    have hfull : w₁.LPR = 513 := by
      rcases hlpr with h1 | h513
      · exact absurd ⟨w, hw, hlpr₁.symm.trans h1⟩ (hmeets.swept time now₁ now₂ k y rfl hy)
      · exact h513
    refine ⟨w₁, hw₁, hfull, by omega, ?_⟩
    rcases hlpa with h0 | ⟨n, hn, hmem⟩
    · omega
    · have : n = 512 := by omega
      rw [hkey]
      exact this ▸ hmem
  refine ⟨fun x hx => ?_, hentered, ?_⟩
  · rcases uploadedList_cases hup with hsame | ⟨y, hy⟩
    · exact hclean x (hsame ▸ hx)
    · rw [hy] at hx
      rcases List.mem_cons.mp hx with rfl | hold
      · obtain ⟨w, hw, hfull, -⟩ := hentered x hy
        rintro ⟨w', hw', hempty⟩
        cases hw.symm.trans hw'
        omega
      · exact hclean x hold
  · intro file now pack addr hash he hhash k x hkey hfail
    refine ⟨fun hfind => hmeets.asked file now pack addr hash he hhash k x hfind hkey hfail,
      fun hfind => ?_⟩
    exact hclean x (List.mem_of_getElem? (findNodeByAddr_spec hfind).1) hfail

end

theorem allTracked_start (config : Config) : (start config).AllTracked :=
  ⟨List.nodup_nil, fun _ hx => absurd hx List.not_mem_nil⟩

end HeardUpload

open HeardUpload in
/-- **Only a really uploaded chunk is recorded**, and no GET is refused for a failed upload, in
exactly the runs in which no failed upload is swept or met by a GET for its chunk. -/
theorem recorded_real_iff (fl : Rounding) (haslist : List HashChunk) (config : Config)
    (es : List UploadEvent) :
    EachStep (next fl haslist) RecordsReal (start config) es ↔
      EachStep (next fl haslist) MeetsNoFailed (start config) es := by
  constructor
  · exact fun h => h.imp (W := AllTracked) (fun _ _ _ hs h => hs.next h)
      (fun _ _ _ hs h => meets_of_recordsReal hs h) (allTracked_start config)
  · intro h
    have keep : ∀ s e t, (AllTracked s ∧ ∀ x ∈ s.up.uploadedList, ¬ x.Failed) →
        next fl haslist s e = some t → MeetsNoFailed s e t →
        (AllTracked t ∧ ∀ x ∈ t.up.uploadedList, ¬ x.Failed) ∧ RecordsReal s e t := by
      rintro s e t ⟨hs, hclean⟩ hnext hmeets
      obtain ⟨hclean', hreal⟩ := recordsReal_of_meets hs hclean hnext hmeets
      exact ⟨⟨hs.next hnext, hclean'⟩, hreal⟩
    have hstart : ∀ x ∈ (start config).up.uploadedList, ¬ x.Failed :=
      fun _ hx => absurd hx List.not_mem_nil
    exact (always_of_each keep ⟨allTracked_start config, hstart⟩ h).2

/-- The data file is missing: the upload is recorded with an empty window before anything is
sent. -/
theorem failed_upload_recorded :
    let hash : Hash := Vector.replicate hashSize 1
    let haslist := [createNode ⟨0, 0⟩ hash 0]
    ∃ s t x, exec (HeardUpload.next .single haslist) (HeardUpload.start ⟨4, ⟨0, 0⟩⟩)
        [.get none 0 (getOf 1) ⟨1, 80⟩] = some s ∧
      s.next .single haslist (.sweep (fun _ => 0) 0 0 0) = some t ∧
      t.up.uploadedList = [x] ∧ x.target = (⟨1, 80⟩, hash) ∧ x.Failed ∧
      ¬ s.RecordsReal (.sweep (fun _ => 0) 0 0 0) t := by
  refine ⟨_, _, _, rfl, rfl, rfl, rfl, ⟨_, rfl, rfl⟩, fun h => ?_⟩
  obtain ⟨w, hw, hfull, -⟩ := h.entered _ rfl
  cases hw
  exact absurd hfull (by decide)

end P2P
