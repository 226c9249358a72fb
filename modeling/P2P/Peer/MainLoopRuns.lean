import P2P.Peer.OneChunk

/-!
# Runs of the main loop

What holds at the head of the loop of `peer_run`, whatever the network, the user, the files and the
clocks have done, as long as the peer has survived:

* `peer_run_lists`: the memory is made of lists in the order the two sides want, with the counters
  that belong to them, and of nothing else;
* `peer_run_file`: between two GETs the output file and the list of needed chunks change only where
  a single chunk was needed. Of several chunks none is ever written.
-/

namespace P2P

open Lib

/-! ## The machines -/

section
variable {fl : Rounding} {shahash : List UInt8 → Hash} {config : Config} {haslist : List HashChunk}
  {v v' : Mydownload × UploadConn} {es : List (DownloadEvent ⊕ UploadEvent)}

namespace Mydownload

variable {me me' : Mydownload} {e : DownloadEvent}

theorem next_of_surviving (h : me.nextSurviving shahash config e = some me') :
    me.next shahash config e = some me' := by
  unfold nextSurviving at h
  split at h
  · split at h
    · exact h
    · cases h
  · cases h
  · exact h

theorem needlist_of_surviving {k : Nat}
    (h : me.nextSurviving shahash config (.finish k) = some me') : me.conn.needlist.length = 1 := by
  by_contra hne
  rw [nextSurviving, if_neg hne] at h
  cases h

/-- The one chunk needed is given up, and the file is written only with that chunk. -/
structure GaveUpLast (shahash : List UInt8 → Hash) (me me' : Mydownload) (x : HashChunk) :
    Prop where
  needed : me.conn.needlist = [x]
  given : me'.conn.needlist = []
  file : me'.outputFd = me.outputFd ∨ ∃ m, m.length = chunkSize ∧ shahash m = x.hash ∧
    me'.outputFd = (me.outputFd.lseek (chunkPos x.chunkid 0)).write m

/-- What may change between two GETs. -/
def BetweenGets (shahash : List UInt8 → Hash) (me me' : Mydownload) : Prop :=
  (me'.conn.needlist = me.conn.needlist ∧ me'.outputFd = me.outputFd) ∨
    ∃ x, GaveUpLast shahash me me' x

theorem betweenGets_next (hme : me.Inv) (he : ∀ entries, e ≠ .reset entries)
    (h : me.nextSurviving shahash config e = some me') : BetweenGets shahash me me' := by
  rcases next_cases hme.lists (next_of_surviving h) with ⟨entries, rfl, -⟩ |
    ⟨k, curr, recver, m, rfl, hs⟩ | ⟨-, hsame, hneed⟩
  · exact absurd rfl (he entries)
  · obtain ⟨x, hx⟩ := List.length_eq_one_iff.mp (needlist_of_surviving h)
    have hperm := hs.removed
    rw [hx, List.map_singleton, List.perm_singleton, List.cons.injEq, List.map_eq_nil_iff] at hperm
    obtain ⟨hentry, hnone⟩ := hperm
    obtain ⟨hid, hhash⟩ := Prod.mk.inj hentry
    refine .inr ⟨x, hx, hnone, ?_⟩
    rw [← hhash, ← hid]
    by_cases hok : m.length = chunkSize ∧ shahash m = curr.hash
    · exact .inr ⟨m, hok.1, hok.2, hs.written hok.1 hok.2⟩
    · exact .inl (hs.kept hok)
  · rw [hsame]
    exact .inl ⟨hneed, rfl⟩

theorem BetweenGets.trans {me'' : Mydownload} (h : BetweenGets shahash me me')
    (h' : BetweenGets shahash me' me'') : BetweenGets shahash me me'' := by
  rcases h with ⟨hneed, hout⟩ | ⟨x, hx⟩
  · rcases h' with ⟨hneed', hout'⟩ | ⟨y, hy⟩
    · exact .inl ⟨hneed'.trans hneed, hout'.trans hout⟩
    · refine .inr ⟨y, hneed ▸ hy.needed, hy.given, ?_⟩
      rw [← hout]
      exact hy.file
  · rcases h' with ⟨hneed', hout'⟩ | ⟨y, hy⟩
    · refine .inr ⟨x, hx.needed, hneed'.trans hx.given, ?_⟩
      rw [hout']
      exact hx.file
    · -- nothing is needed any more
      have hnone := hy.needed
      rw [hx.given] at hnone
      cases hnone

end Mydownload

theorem exec_sides (h : exec (peerNext fl shahash config haslist) v es = some v') :
    (∃ ds, exec (Mydownload.next shahash config) v.1 ds = some v'.1) ∧
      ∃ us, exec (UploadConn.next fl haslist) v.2 us = some v'.2 := by
  obtain ⟨hdown, hup⟩ := exec_beside h
  refine ⟨⟨_, exec_map id id (fun s e t hstep => ?_) hdown⟩, _, hup⟩
  exact Mydownload.next_of_surviving hstep

theorem betweenGets_exec (hv : v.1.Inv) (hok : ∀ e ∈ es, Mem.Allowed False e)
    (h : exec (peerNext fl shahash config haslist) v es = some v') :
    v'.1.Inv ∧ Mydownload.BetweenGets shahash v.1 v'.1 := by
  refine exec_invariant_of (Mem.Allowed False)
    (fun w => w.1.Inv ∧ Mydownload.BetweenGets shahash v.1 w.1) (fun s e t he hs hnext => ?_) hok
    ⟨hv, .inl ⟨rfl, rfl⟩⟩ h
  cases e with
  | inl e =>
    obtain ⟨me, hme, rfl⟩ := Option.map_eq_some_iff.mp hnext
    have hstep := Mydownload.betweenGets_next hs.1 (fun entries heq => he entries (heq ▸ rfl)) hme
    exact ⟨hs.1.next (Mydownload.next_of_surviving hme), hs.2.trans hstep⟩
  | inr e =>
    obtain ⟨up, -, rfl⟩ := Option.map_eq_some_iff.mp hnext
    exact hs

end

/-! ## The loop -/

namespace Mem

variable {fl : Rounding} {shahash : List UInt8 → Hash} {config : Config}
  {haslist : List HashChunk} {peer peer' : Peer} {v : Mydownload × UploadConn} {ps qs : List Pass}
  {down : Downloads} {need queue sent load need' queue' sent' load' : List (Nat × HashChunk)}

/-- What the loop has reached is represented by states that the two machines reach. -/
structure Peer.Reached (fl : Rounding) (shahash : List UInt8 → Hash) (config : Config)
    (haslist : List HashChunk) (peer : Peer) (v : Mydownload × UploadConn) : Prop where
  represents : peer.Represents v
  downloads : ∃ es, exec (Mydownload.next shahash config) (initMydownload config) es = some v.1
  uploads : ∃ es, exec (UploadConn.next fl haslist) (initUploadConn config) es = some v.2

/-- **Passes that the peer survives** lead to such states. -/
theorem exists_reached
    (h : exec (peerPass fl shahash config haslist) (Peer.start config) ps = some peer) :
    ∃ v, peer.Reached fl shahash config haslist v := by
  have hstep : ∀ peer v p peer', p ∈ ps → peer.Represents v →
      peerPass fl shahash config haslist peer p = some peer' →
      Runs fl shahash config haslist True v peer' := by
    intro peer v p peer' _ hp h
    obtain ⟨es, v', -, hrun, hv'⟩ := peerPass_runs hp h
    exact ⟨es, v', fun _ _ _ _ => trivial, hrun, hv'⟩
  obtain ⟨es, v, -, hrun, hv⟩ := exec_refines hstep (represents_start config) h
  obtain ⟨hdown, hup⟩ := exec_sides hrun
  exact ⟨v, hv, hdown, hup⟩

theorem Peer.Reached.inv (h : peer.Reached fl shahash config haslist v) : v.1.Inv := by
  obtain ⟨es, hrun⟩ := h.downloads
  exact exec_invariant Mydownload.Inv (fun _ _ _ hs hnext => hs.next hnext)
    (Mydownload.inv_init config) hrun

theorem Downloads.Owns.conn_eq {d : DownloadConn} (hs : down.Owns need queue sent load)
    (hd : down.Represents d) : down.conn need queue sent load = d := by
  obtain ⟨need', queue', sent', load', hs', rfl⟩ := hd
  rw [hs.holds.needlist.unique hs'.holds.needlist,
    hs.holds.getTosendQuene.unique hs'.holds.getTosendQuene,
    hs.holds.getSentList.unique hs'.holds.getSentList,
    hs.holds.downloadingList.unique hs'.holds.downloadingList]

theorem exec_betweenGets (hp : peer.Represents v) (hv : v.1.Inv)
    (hno : EachStep (peerPass fl shahash config haslist) (fun peer p _ => ¬ p.StartsGet peer)
      peer qs)
    (h : exec (peerPass fl shahash config haslist) peer qs = some peer') :
    ∃ v', peer'.Represents v' ∧ v'.1.Inv ∧ Mydownload.BetweenGets shahash v.1 v'.1 := by
  let Inv (peer : Peer) : Prop :=
    ∃ v', peer.Represents v' ∧ v'.1.Inv ∧ Mydownload.BetweenGets shahash v.1 v'.1
  have hstep : ∀ s p t, Inv s → peerPass fl shahash config haslist s p = some t →
      ¬ p.StartsGet s → Inv t ∧ (fun _ _ _ => True : Peer → Pass → Peer → Prop) s p t := by
    rintro s p t ⟨w, hw, hinv, hbetween⟩ hpass hget
    obtain ⟨es, w', hok, hrun, hw'⟩ := peerPass_runs hw hpass
    have hok' : ∀ e ∈ es, Allowed False e := fun e he entries heq => hget (hok e he entries heq)
    obtain ⟨hinv', hbetween'⟩ := betweenGets_exec hinv hok' hrun
    exact ⟨⟨w', hw', hinv', hbetween.trans hbetween'⟩, trivial⟩
  have hstart : Inv peer := ⟨v, hp, hv, .inl ⟨rfl, rfl⟩⟩
  have hall := (always_of_each hstep hstart hno).1
  rw [← List.append_nil qs] at hall
  exact hall.of_exec h

end Mem

open Mem in
/-- **The lists at the head of the loop.** The memory of the two sides is made of their lists, with
no node in two of them and none lost. The lists and the counters of the download side are in order,
no two uploads are to one port, and every upload has its window. -/
theorem peer_run_lists {fl : Rounding} {shahash : List UInt8 → Hash} {config : Config}
    {haslist : List HashChunk} (hconn : 0 ≤ config.maxConn) {ps : List Pass} {peer : Peer}
    (h : exec (peerPass fl shahash config haslist) (Peer.start config) ps = some peer) :
    ∃ d up, peer.mydownload.Represents d ∧ d.WellFormed ∧ d.Counted ∧ d.Capacity config ∧
      peer.myupload.Represents up ∧ up.Distinct ∧ up.Windows := by
  obtain ⟨v, hv⟩ := exists_reached h
  obtain ⟨es, hdown⟩ := hv.downloads
  obtain ⟨us, hup⟩ := hv.uploads
  -- the lists move as they do without the file
  have hconn' : exec (DownloadConn.next config) (initDownloadConn config) es = some v.1.conn := by
    have := exec_map Mydownload.conn id (fun s e t hstep => Mydownload.next_conn hstep) hdown
    rwa [List.map_id] at this
  obtain ⟨hcounted, hcapacity⟩ := DownloadConn.exec_counted hconn hconn'
  have hnone : (initUploadConn config).Distinct := List.nodup_nil
  have hdistinct : v.2.Distinct :=
    exec_invariant UploadConn.Distinct (fun _ _ _ hs h => UploadConn.next_distinct hs h) hnone hup
  exact ⟨v.1.conn, v.2, hv.represents.downloads, hv.inv.lists.wellFormed, hcounted, hcapacity,
    hv.represents.uploads, hdistinct, hv.represents.windows⟩

open Mem in
/-- A GET is typed, offered and completed. -/
theorem peer_run_lists_zeros : ∃ peer d up,
    exec (peerPass .exact (fun _ => zeroHash) ⟨4, ⟨0, 1⟩⟩ []) (Peer.start ⟨4, ⟨0, 1⟩⟩)
      (zerosOrder :: zerosPasses) = some peer ∧
    peer.mydownload.Represents d ∧ d.WellFormed ∧ d.Counted ∧ d.Capacity ⟨4, ⟨0, 1⟩⟩ ∧
    peer.myupload.Represents up ∧ up.Distinct ∧ up.Windows := by
  obtain ⟨_, peer, hstep, -, hrun, -⟩ := exists_zerosRun
  have hall := (exec_step hstep zerosPasses).trans hrun
  obtain ⟨d, up, hlists⟩ := peer_run_lists (by decide) hall
  exact ⟨peer, d, up, hall, hlists⟩

open Mem in
/-- **The file between two GETs.** The chunks needed are in the first 2 GiB of the file. After
passes that the peer survives, and in which no line starts a GET, the chunks needed and the file are
what they were; or a single chunk was needed and nothing is any more, and the file has at most been
written with a chunk of its hash at its place. -/
theorem peer_run_file {fl : Rounding} {shahash : List UInt8 → Hash} {config : Config}
    {haslist : List HashChunk} {ps qs : List Pass} {peer peer' : Peer}
    {need queue sent load : List (Nat × HashChunk)}
    (hstart : exec (peerPass fl shahash config haslist) (Peer.start config) ps = some peer)
    (hown : peer.mydownload.Owns need queue sent load)
    (hsmall : ∀ x ∈ contents need, 0 ≤ x.chunkid ∧ x.chunkid < 4096)
    (hrun : exec (peerPass fl shahash config haslist) peer qs = some peer')
    (hno : EachStep (peerPass fl shahash config haslist) (fun peer p _ => ¬ p.StartsGet peer)
      peer qs) :
    ∃ need' queue' sent' load', peer'.mydownload.Owns need' queue' sent' load' ∧
      ((contents need' = contents need ∧ peer'.outputFd = peer.outputFd) ∨
        ∃ x, contents need = [x] ∧ need' = [] ∧ queue' = [] ∧ sent' = [] ∧ load' = [] ∧
          (peer'.outputFd = peer.outputFd ∨ ∃ m, m.length = chunkSize ∧ shahash m = x.hash ∧
            peer'.outputFd.blocks =
              ((x.chunkid * chunkSize).toNat, m) :: peer.outputFd.blocks)) := by
  obtain ⟨v, hv⟩ := exists_reached hstart
  obtain ⟨v', hv', hinv', hbetween⟩ := exec_betweenGets hv.represents hv.inv hno hrun
  have hneed : v.1.conn.needlist = contents need := by
    rw [← hown.conn_eq hv.represents.downloads]
    rfl
  have hfile := hv.represents.file
  have hfile' := hv'.file
  obtain ⟨need', queue', sent', load', hown', hconn'⟩ := hv'.downloads
  have hneed' : v'.1.conn.needlist = contents need' := by
    rw [← hconn']
    rfl
  refine ⟨need', queue', sent', load', hown', ?_⟩
  rcases hbetween with ⟨hsame, hout⟩ | ⟨x, hx⟩
  · exact .inl ⟨by rw [← hneed', hsame, hneed], by rw [← hfile', hout, hfile]⟩
  · -- with nothing needed the other lists are empty
    obtain ⟨hqueue, hsent, hload⟩ := hinv'.lists.lists_eq_nil hx.given
    have hgiven := hx.given
    rw [← hconn'] at hqueue hsent hload hgiven
    have hone : contents need = [x] := by rw [← hneed, hx.needed]
    refine .inr ⟨x, hone, List.map_eq_nil_iff.mp hgiven, List.map_eq_nil_iff.mp hqueue,
      List.map_eq_nil_iff.mp hsent, List.map_eq_nil_iff.mp hload, ?_⟩
    rw [hone, List.forall_mem_singleton] at hsmall
    rw [← hfile', ← hfile]
    refine hx.file.imp id fun ⟨m, hlen, hsha, hout⟩ => ⟨m, hlen, hsha, ?_⟩
    rw [hout, Mydownload.write_lseek_blocks hsmall.1 hsmall.2]

open Mem in
/-- One chunk is asked for, and the passes complete its GET. -/
theorem peer_run_file_zeros : ∃ peer peer' need' queue' sent' load',
    exec (peerPass .exact (fun _ => zeroHash) ⟨4, ⟨0, 1⟩⟩ []) (Peer.start ⟨4, ⟨0, 1⟩⟩)
      [zerosOrder] = some peer ∧
    exec (peerPass .exact (fun _ => zeroHash) ⟨4, ⟨0, 1⟩⟩ []) peer zerosPasses = some peer' ∧
    peer'.mydownload.Owns need' queue' sent' load' ∧ peer'.outputFd.blocks = [(0, zeros)] ∧
    ((contents need' = [createNode ⟨0, 1⟩ zeroHash 0] ∧ peer'.outputFd = peer.outputFd) ∨
      ∃ x, [createNode ⟨0, 1⟩ zeroHash 0] = [x] ∧ need' = [] ∧ queue' = [] ∧ sent' = [] ∧
        load' = [] ∧ (peer'.outputFd = peer.outputFd ∨ ∃ m, m.length = chunkSize ∧
          zeroHash = x.hash ∧ peer'.outputFd.blocks =
            ((x.chunkid * chunkSize).toNat, m) :: peer.outputFd.blocks)) := by
  obtain ⟨peer, peer', hstep, hp, hrun, hp'⟩ := exists_zerosRun
  obtain ⟨need, queue, sent, load, hown, hlists⟩ := hp.lists
  have hneed : contents need = [createNode ⟨0, 1⟩ zeroHash 0] :=
    congrArg DownloadConn.needlist hlists
  have hsmall : ∀ x ∈ contents need, 0 ≤ x.chunkid ∧ x.chunkid < 4096 := by
    rw [hneed, List.forall_mem_singleton]
    exact ⟨le_refl 0, by decide⟩
  have hno : EachStep (peerPass .exact (fun _ => zeroHash) ⟨4, ⟨0, 1⟩⟩ [])
      (fun peer p _ => ¬ p.StartsGet peer) peer zerosPasses := by
    refine (each_of_events zerosPasses_typed).imp (W := fun _ => True) (fun _ _ _ _ _ => trivial)
      (fun s p t _ _ hp => ?_) trivial
    rintro ⟨line, hline, -⟩
    rw [hp] at hline
    cases hline
  obtain ⟨need', queue', sent', load', hown', hcases⟩ :=
    peer_run_file (exec_step hstep []) hown hsmall hrun hno
  rw [hneed] at hcases
  refine ⟨peer, peer', need', queue', sent', load', exec_step hstep [], hrun, hown', ?_, hcases⟩
  rw [hp'.file]
  rfl

end P2P
