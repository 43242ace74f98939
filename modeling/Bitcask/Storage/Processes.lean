import Bitcask.Storage.Histories
import Bitcask.Storage.LockFile

/-!
# Many processes on one directory

Any number of processes open stores on one directory, of either engine, and each has its own handles,
calls and compaction thread. They share nothing but the directory and the advisory lock. A process may
die at any moment, also in the middle of the marker.

Nothing in `FleetRun` keeps two processes from having a store open at once. `Fleet.Inv` says that the
lock file does: the histories of all processes together are one history in the sense of `Lived`. So
every store sees what the appends of all processes before it say (`fleet_sound`).
-/

namespace Bitcask

open LittleEndian FileSystem SegmentedLog CrashHoare

/-- The store of a process, in the directory as it is now. -/
def Live.withFs (l : Live) (fs : Fs FileName) : Live :=
  { l with clients := { l.clients with store := { l.store with fs } } }

/-- The directory with its openers, and the stores they have open. -/
structure Fleet where
  openers : Openers
  stores : ℕ → Option (Config × Live)

/-- What any number of processes lead to from the empty directory, with the commands whose appends are
over. -/
inductive FleetRun (crc : Bytes → UInt32) : Fleet → List Command → Prop
  | start : FleetRun crc ⟨.start Fs.empty, fun _ => none⟩ []
  | opener {o o' : Openers} {stores : ℕ → Option (Config × Live)} {ops : List Command} {p : ℕ}
      {a : OpenerAct} {evs : List OpenerEvent} (h : FleetRun crc ⟨o, stores⟩ ops)
      (hp : stores p = none) (hs : o.step p a = some (o', evs)) : FleetRun crc ⟨o', stores⟩ ops
  | opened {o : Openers} {stores : ℕ → Option (Config × Live)} {ops : List Command} {p now : ℕ}
      {file : Inode} {listing : List FileName} {s : Sys} (cfg : Config)
      (h : FleetRun crc ⟨o, stores⟩ ops) (hp : stores p = none)
      (hheld : o.procs p = .held .bitcask file) (hlist : o.fs.Lists listing)
      (hopen : (loadStore crc listing now o.fs).result = .ok s) :
      FleetRun crc ⟨{ o with fs := s.fs }, Function.update stores p (some (cfg, .start s))⟩ ops
  | openErr {o : Openers} {stores : ℕ → Option (Config × Live)} {ops : List Command} {p now : ℕ}
      {file : Inode} {listing : List FileName} {e : Fault} (h : FleetRun crc ⟨o, stores⟩ ops)
      (hp : stores p = none) (hheld : o.procs p = .held .bitcask file) (hlist : o.fs.Lists listing)
      (hopen : (loadStore crc listing now o.fs).result = .error e) :
      FleetRun crc ⟨{ o.close p with fs := (loadStore crc listing now o.fs).after }, stores⟩ ops
  | openCrash {o : Openers} {stores : ℕ → Option (Config × Live)} {ops : List Command} {p now : ℕ}
      {file : Inode} {listing : List FileName} {fs : Fs FileName} (h : FleetRun crc ⟨o, stores⟩ ops)
      (hp : stores p = none) (hheld : o.procs p = .held .bitcask file) (hlist : o.fs.Lists listing)
      (hcrash : (loadStore crc listing now).Crashes o.fs fs) :
      FleetRun crc ⟨{ o.close p with fs }, stores⟩ ops
  | step {o : Openers} {stores : ℕ → Option (Config × Live)} {ops : List Command} {p : ℕ}
      {cfg : Config} {l l' : Live} {a : LiveAct} {evs : List ClientEvent}
      (h : FleetRun crc ⟨o, stores⟩ ops) (hp : stores p = some (cfg, l)) (ha : a.Nominal)
      (hs : (l.withFs o.fs).step crc cfg a = some (l', evs)) :
      FleetRun crc ⟨{ o with fs := l'.store.fs }, Function.update stores p (some (cfg, l'))⟩
        (ops ++ finished crc l.store l'.store)
  | crash {o : Openers} {stores : ℕ → Option (Config × Live)} {ops : List Command} {p : ℕ}
      {cfg : Config} {l : Live} (h : FleetRun crc ⟨o, stores⟩ ops) (hp : stores p = some (cfg, l)) :
      FleetRun crc ⟨o.close p, Function.update stores p none⟩ (ops ++ l.store.lock.written crc)
  | exit {o : Openers} {stores : ℕ → Option (Config × Live)} {ops : List Command} {p : ℕ}
      {cfg : Config} {l : Live} (h : FleetRun crc ⟨o, stores⟩ ops) (hp : stores p = some (cfg, l))
      (hd : l.handle = .dropped) : FleetRun crc ⟨o.close p, Function.update stores p none⟩ ops

/-! ## Taking the lock file as a part of `open` -/

section Acquire

variable {crc : Bytes → UInt32} {fs : Fs FileName} {listing : List FileName} {now : ℕ} {file : Inode}

/-- The first byte of the marker is still to be written when the file has been created, and the last one
has been when it is synced. -/
theorem acquire_blank (hb : Blank ((fs.create .lock).bytes (fs.handle .lock))) :
    ∃ parts, storeNames.acquire .bitcask fs =
      ⟨fs :: fs.create .lock :: parts ++
        [(fs.create .lock).append (fs.handle .lock) (asBytes engine)], .ok (),
      ((fs.create .lock).append (fs.handle .lock) (asBytes engine)).sync (fs.handle .lock)⟩ := by
  have hc : checkMarker .bitcask ((fs.create .lock).bytes (fs.handle .lock)) = .blank :=
    checkMarker_eq_blank.mpr hb
  obtain ⟨_, hres, hafter⟩ := (DirM.writeAll_spec (fs.create .lock) (fs.handle .lock)
    (asBytes engine)).returns rfl
  obtain ⟨parts, hparts⟩ : ∃ parts, (DirM.writeAll (fs.handle .lock) (asBytes engine)
      (fs.create .lock)).before = fs.create .lock :: parts := ⟨_, rfl⟩
  refine ⟨parts, ?_⟩
  simp only [engine] at hres hafter hparts ⊢
  simp [Naming.acquire, DirM.openCreate, hc, Prog.get, Prog.call, Bind.bind, Prog.bind, Pure.pure,
    Prog.pure, hres, hafter, hparts]

theorem acquire_mine (hl : fs.lookup .lock = some file)
    (hc : checkMarker .bitcask (fs.bytes file) = .mine) :
    storeNames.acquire .bitcask fs = ⟨[fs], .ok (), fs⟩ := by
  simp [Naming.acquire, DirM.openCreate, Fs.create_of_some hl, Fs.handle_of_some hl, hc, Prog.get,
    Prog.call, Bind.bind, Prog.bind, Pure.pure, Prog.pure]

/-- With its marker in the directory, `open` is what follows `acquire`. -/
theorem openStore_of_mine (hl : fs.lookup .lock = some file)
    (hc : checkMarker .bitcask (fs.bytes file) = .mine) :
    openStore crc listing now fs = ⟨fs :: (loadStore crc listing now fs).before,
      (loadStore crc listing now fs).result, (loadStore crc listing now fs).after⟩ := by
  rw [openStore_eq]
  show Prog.bind _ _ fs = _
  rw [Prog.bind, acquire_mine hl hc]
  rfl

theorem scanEntry_starts (scan : Scan) (n : FileName) : StartsAt (storeNames.scanEntry scan n) fs := by
  refine .get_bind ?_
  cases fs.lookup n with
  | none => exact .pure _
  | some i =>
    cases n with
    | data | lock => exact .pure _
    | compact => exact .bind (.call _) fun _ => .pure _
    | hint id =>
      show StartsAt (if _ then _ else _) fs
      split
      · exact .bind (.call _) fun _ => .pure _
      · exact .pure _

/-- The rest of `open` makes a call. -/
theorem loadStore_before : (loadStore crc listing now fs).before.head? = some fs := by
  have hwalk : Triple (Opening fs) (listing.foldlM storeNames.scanEntry ⟨∅, none⟩) (fun _ => Opening fs)
      (fun _ _ => False) (Opening fs) :=
    Triple.foldlM (fun _ _ => Opening fs) (fun _ n _ scan _ => scanEntry_opening n scan _) _
  obtain ⟨scan, hscan, -⟩ := hwalk.returns (Opening.refl fs)
  rw [loadStore, Naming.load, Prog.bind_assoc]
  show (Prog.bind _ _ fs).before.head? = some fs
  rw [Prog.bind, hscan]
  rcases StartsAt.foldlM (s := fs) scanEntry_starts listing (⟨∅, none⟩ : Scan) with hb | ⟨hb, ha⟩
  · simp only [List.head?_append, hb, Option.some_or]
  · rw [hb, ha]
    show ((storeNames.loadFrom crc now scan >>= _) fs).before.head? = some fs
    rw [Naming.loadFrom, Prog.bind_assoc]
    rfl

theorem crashes_created (hl : fs.lookup .lock = none) :
    (openStore crc listing now).Crashes fs (fs.create .lock) := by
  have hb : Blank ((fs.create .lock).bytes (fs.handle .lock)) := by
    rw [Fs.handle_of_none hl, Fs.bytes_create_next hl]
    exact ⟨"", by decide, by decide⟩
  obtain ⟨parts, hac⟩ := acquire_blank hb
  rw [openStore_eq]
  show fs.create .lock ∈ (Prog.bind _ _ fs).before
  rw [Prog.bind, hac]
  simp

/-- A process may die before the sync of the marker and after it. -/
theorem crashes_stamped (hl : fs.lookup .lock = some file) (hb : Blank (fs.bytes file)) :
    (openStore crc listing now).Crashes fs (fs.append file (asBytes engine)) ∧
      (openStore crc listing now).Crashes fs ((fs.append file (asBytes engine)).sync file) := by
  obtain ⟨parts, hac⟩ : ∃ parts, storeNames.acquire .bitcask fs = ⟨fs :: fs :: parts ++
      [fs.append file (asBytes engine)], .ok (), (fs.append file (asBytes engine)).sync file⟩ := by
    obtain ⟨parts, hac⟩ := @acquire_blank fs (by rwa [Fs.create_of_some hl, Fs.handle_of_some hl])
    rw [Fs.create_of_some hl, Fs.handle_of_some hl] at hac
    exact ⟨parts, hac⟩
  rw [openStore_eq]
  constructor
  · show _ ∈ (Prog.bind _ _ fs).before
    rw [Prog.bind, hac]
    simp
  · show _ ∈ (Prog.bind _ _ fs).before
    rw [Prog.bind, hac]
    exact List.mem_append_right _ (List.mem_of_mem_head? loadStore_before)

/-- The name of the lock file stands for the file `L`, or for none. -/
def LockName (L : Option Inode) (fs : Fs FileName) : Prop := fs.lookup .lock = L

variable {L : Option Inode} {n : FileName}

theorem keeps_unlink (hn : n ≠ .lock) :
    Preserves (LockName L) (Prog.call (·.unlink n) : DirM FileName Unit) :=
  .call fun fs h => (Fs.lookup_unlink_ne fs (Ne.symm hn)).trans h

theorem scanEntry_keeps (scan : Scan) (n : FileName) :
    Preserves (LockName L) (storeNames.scanEntry scan n) := by
  refine .get_bind fun fs => ?_
  cases fs.lookup n with
  | none => exact .pure _
  | some i =>
    cases n with
    | data | lock => exact .pure _
    | compact => exact .bind (keeps_unlink (by simp)) fun _ => .pure _
    | hint id =>
      show Preserves _ (if _ then _ else _)
      split
      · exact .bind (keeps_unlink (by simp)) fun _ => .pure _
      · exact .pure _

theorem replayData_keeps (id : ℕ) (i : Inode) (l : Loader) :
    Preserves (LockName L) (replayData crc id i l) := by
  refine .get_bind fun fs => ?_
  dsimp only
  split
  · exact .throw _
  · exact .throw _
  · exact .pure _
  · split
    · exact .bind (.call fun _ h => h) fun _ => .pure _
    · exact .throw _

theorem replayFile_keeps (l : Loader) (id : ℕ) (i : Inode) :
    Preserves (LockName L) (storeNames.replayFile crc l id i) := by
  refine .get_bind fun fs => ?_
  split
  · split
    · split
      · exact .throw _
      · exact .pure _
      · exact .bind (keeps_unlink (by simp)) fun _ => replayData_keeps _ _ _
      · exact .bind (keeps_unlink (by simp)) fun _ => replayData_keeps _ _ _
    · exact replayData_keeps _ _ _
  · exact replayData_keeps _ _ _

theorem replay_keeps (files : List (ℕ × Inode)) (l : Loader) :
    Preserves (LockName L) (storeNames.replay crc files l) := by
  induction files generalizing l with
  | nil => exact .pure _
  | cons f files ih =>
    refine .bind (replayFile_keeps l f.1 f.2) fun r => ?_
    dsimp only
    split
    · exact ih _
    · exact .pure _

/-- The rest of `open` leaves the lock file its name. -/
theorem loadStore_keeps : Preserves (LockName L) (loadStore crc listing now) := by
  refine .bind (.bind (.foldlM scanEntry_keeps _ _) fun scan => .bind (.get_bind fun fs => ?_)
    fun file => replay_keeps _ _) fun l => .get_bind fun fs => .pure _
  exact .bind (.call fun fs h => (Fs.lookup_create_ne (by simp)).trans h) fun _ => .pure _

end Acquire

/-! ## All processes together -/

section Fleet

variable {crc : Bytes → UInt32} {cfg : Config} {o o' : Openers} {ops : List Command} {p : ℕ}
  {file : Inode} {evs : List OpenerEvent} {l l' : Live} {stores : ℕ → Option (Config × Live)}

/-- The histories of all processes, as one history. -/
inductive Fleet.Phase (crc : Bytes → UInt32) : Fleet → List Command → Prop
  | running {o : Openers} {ops : List Command} {p : ℕ} {cfg : Config} {l : Live} {file : Inode}
      (hp : o.procs p = .held .bitcask file) (hfs : l.store.fs = o.fs)
      (h : Lived crc (fun _ a => a.Nominal) (.live cfg l) ops) :
      Phase crc ⟨o, Function.update (fun _ => none) p (some (cfg, l))⟩ ops
  | closed {o : Openers} {ops : List Command} (hw : ∀ p e i n, o.procs p ≠ .writing e i n)
      (h : Lived crc (fun _ a => a.Nominal) (.closed o.fs) ops) : Phase crc ⟨o, fun _ => none⟩ ops
  /-- The marker that is being written is no state of `open`. -/
  | stamping {o : Openers} {ops : List Command} {p n : ℕ} {e : StoreType} {file : Inode}
      {fs : Fs FileName} (hp : o.procs p = .writing e file n) (hl : fs.lookup .lock = some file)
      (hb : Blank (fs.bytes file)) (hfs : o.fs = fs.append file ((asBytes e.asStr).take n))
      (h : Lived crc (fun _ a => a.Nominal) (.closed fs) ops) : Phase crc ⟨o, fun _ => none⟩ ops
  /-- No store will ever be opened again. -/
  | refused {o : Openers} {ops : List Command} {b : Bytes} (hset : o.Settled b)
      (hb : checkMarker .bitcask b ≠ .mine) : Phase crc ⟨o, fun _ => none⟩ ops

/-- A crash inside `open`, in any order of its walk. -/
theorem Lived.crashes {fs fs' : Fs FileName} (h : Lived crc (fun _ a => a.Nominal) (.closed fs) ops)
    (hc : ∀ listing, (openStore crc listing 0).Crashes fs fs') (ht : ¬ TornMarker fs') :
    Lived crc (fun _ a => a.Nominal) (.closed fs') ops := by
  obtain ⟨listing, hlist⟩ := Fs.exists_lists (fs.create .lock)
  exact .openCrash h hlist (hc listing) ht

theorem no_writer_update {x : Opener} {procs : ℕ → Opener} (hw : ∀ p e i n, procs p ≠ .writing e i n)
    (hx : ∀ e i n, x ≠ .writing e i n) (q : ℕ) (e : StoreType) (i : Inode) (n : ℕ) :
    Function.update procs p x q ≠ .writing e i n := by
  by_cases hqp : q = p
  · rw [hqp, Function.update_self]
    exact hx _ _ _
  · rw [Function.update_of_ne hqp]
    exact hw _ _ _ _

/-- The directory is closed, and an opener calls. -/
theorem Fleet.Phase.opener_closed (hinv : o.Inv) (hw : ∀ p e i n, o.procs p ≠ .writing e i n)
    (h : Lived crc (fun _ a => a.Nominal) (.closed o.fs) ops) (hs : OpenerStep o p o' evs) :
    Phase crc ⟨o', fun _ => none⟩ ops := by
  cases hs with
  | openFile e hp =>
    refine .closed (no_writer_update hw (by simp)) ?_
    cases hl : o.fs.lookup .lock with
    | some i =>
      show Lived crc _ (.closed (o.fs.create .lock)) ops
      rw [Fs.create_of_some hl]
      exact h
    | none =>
      refine h.crashes (fun _ => crashes_created hl) (not_torn (b := []) ?_ (Or.inl rfl))
      rw [read_lockFile, Fs.handle_of_none hl, Fs.bytes_create_next hl]
  | blank e file hp hc =>
    exact .stamping (p := p) (n := 0) (Function.update_self ..) (hinv.file (by rw [hp]; rfl))
      (checkMarker_eq_blank.mp hc) (Fs.append_nil ..).symm h
  | write e file done n hp hn => exact absurd hp (hw _ _ _ _)
  | synced e file hp => exact absurd hp (hw _ _ _ _)
  | locked | mine | refused | closed => exact .closed (no_writer_update hw (by simp)) h

/-- The opener that writes the marker calls, or is gone. -/
theorem Fleet.Phase.opener_stamping (hinv : o.Inv) {n : ℕ} {e : StoreType} {fs : Fs FileName}
    (hp : o.procs p = .writing e file n) (hl : fs.lookup .lock = some file)
    (hb : Blank (fs.bytes file)) (hfs : o.fs = fs.append file ((asBytes e.asStr).take n))
    (h : Lived crc (fun _ a => a.Nominal) (.closed fs) ops) (hs : OpenerStep o p o' evs) :
    Phase crc ⟨o', fun _ => none⟩ ops := by
  -- nobody else is writing
  have hw : ∀ {x : Opener}, (∀ e i n, x ≠ .writing e i n) → ∀ q e i n,
      Function.update o.procs p x q ≠ .writing e i n := by
    intro x hx q e' i n' hq
    by_cases hqp : q = p
    · rw [hqp, Function.update_self] at hq
      exact hx _ _ _ hq
    · rw [Function.update_of_ne hqp] at hq
      exact hqp (hinv.unique (by rw [hq]; rfl) (by rw [hp]; rfl))
  have hbytes : o.fs.bytes file = fs.bytes file ++ (asBytes e.asStr).take n := by
    rw [hfs, Fs.bytes_append_self]
  have hsettled : checkMarker .bitcask (o.fs.bytes file) ≠ .blank →
      checkMarker .bitcask (o.fs.bytes file) ≠ .mine → Phase crc ⟨o.close p, fun _ => none⟩ ops :=
    fun hnb hnm => .refused (hinv.settled (by rw [hp]; rfl) (by rw [hp]; rfl) rfl
      (not_blank rfl hnb) (by simp)) hnm
  have hread : o.fs.read .lock = some (fs.bytes file ++ (asBytes e.asStr).take n) := by
    rw [Fs.read, hfs, show (fs.append file ((asBytes e.asStr).take n)).lookup .lock = some file from hl,
      Option.map_some, Fs.bytes_append_self]
  cases hs with
  | write e' file' done k hp' hn =>
    obtain ⟨rfl, rfl, rfl⟩ := Opener.writing.inj (hp.symm.trans hp')
    refine .stamping (p := p) (Function.update_self ..) hl hb ?_ h
    show o.fs.append file _ = _
    rw [hfs, Fs.append_append, ← List.take_add]
  | synced e' file' hp' =>
    obtain ⟨rfl, rfl, rfl⟩ := Opener.writing.inj (hp.symm.trans hp')
    rw [List.take_length] at hfs hread
    cases e with
    | bitcask =>
      refine .closed (hw (by simp)) (h.crashes (fun _ => ?_)
        (not_torn (show (o.fs.sync file).read .lock = _ from hread) (Or.inr (by simp [engine]))))
      show Prog.Crashes _ fs (o.fs.sync file)
      rw [hfs]
      exact (crashes_stamped hl hb).2
    | sled =>
      obtain ⟨b, hset, hc⟩ := hinv.tells (.synced .sled file hp') _ List.mem_cons_self
      exact .refused hset fun hc' => by cases checkMarker_mine hc hc'
  | closed evs hevs =>
    rcases Nat.eq_zero_or_pos n with rfl | h0
    · refine .closed (hw (by simp)) ?_
      show Lived crc _ (.closed o.fs) ops
      rw [hfs, List.take_zero, Fs.append_nil]
      exact h
    · rcases Nat.lt_or_ge n (asBytes e.asStr).length with hn | hn
      · obtain ⟨found, hc⟩ := hb.checkMarker_torn h0 hn .bitcask
        rw [← hbytes] at hc
        exact hsettled (by rw [hc]; simp) (by rw [hc]; simp)
      · rw [List.take_of_length_le hn] at hfs hbytes hread
        cases e with
        | bitcask =>
          refine .closed (hw (by simp)) (h.crashes (fun _ => ?_)
            (not_torn hread (Or.inr (by simp [engine]))))
          show Prog.Crashes _ fs o.fs
          rw [hfs]
          exact (crashes_stamped hl hb).1
        | sled =>
          have hc : checkMarker .bitcask (o.fs.bytes file) =
              .refused (.engineMismatch "sled" "bitcask") := by
            rw [hbytes, hb.checkMarker_append]
            decide
          exact hsettled (by rw [hc]; simp) (by rw [hc]; simp)
  | openFile e' hp' | locked e' file' hp' | blank e' file' hp' | mine e' file' hp'
  | refused e' file' err hp' => rw [hp] at hp'; cases hp'

theorem Fleet.Phase.opener (hinv : o.Inv) (h : Phase crc ⟨o, stores⟩ ops) (hp : stores p = none)
    (hs : OpenerStep o p o' evs) : Phase crc ⟨o', stores⟩ ops := by
  cases h with
  | @running _ _ p₀ cfg l file hp₀ hfs h =>
    have hne : p₀ ≠ p := by
      rintro rfl
      rw [Function.update_self] at hp
      cases hp
    refine .running ((hs.procs_ne hne).trans hp₀) ?_ h
    rw [hfs, hinv.fs_other (by rw [hp₀]; rfl) hne.symm hs]
  | closed hw h => exact .opener_closed hinv hw h hs
  | @stamping _ _ p₀ n e file fs hp₀ hl hb hfs h =>
    by_cases hne : p₀ = p
    · subst hne
      exact .opener_stamping hinv hp₀ hl hb hfs h hs
    · refine .stamping ((hs.procs_ne hne).trans hp₀) hl hb ?_ h
      rw [hinv.fs_other (by rw [hp₀]; rfl) (Ne.symm hne) hs]
      exact hfs
  | refused hset hb => exact .refused (hset.step hinv hs) hb

/-- An opener of this engine that has the lock file, and no store yet, has the directory to itself. -/
theorem Fleet.Phase.of_held (hinv : o.Inv) (hg : o.Granted) (h : Phase crc ⟨o, stores⟩ ops)
    (hp : stores p = none) (hheld : o.procs p = .held .bitcask file) :
    stores = (fun _ => none) ∧ Lived crc (fun _ a => a.Nominal) (.closed o.fs) ops ∧
      o.fs.lookup .lock = some file ∧ checkMarker .bitcask (o.fs.bytes file) = .mine := by
  have hl : o.fs.lookup .lock = some file := hinv.file (by rw [hheld]; rfl)
  obtain ⟨b, hset, hc⟩ := hg p _ _ hheld
  cases h with
  | @running _ _ p₀ cfg l file hp₀ hfs h =>
    obtain rfl := hinv.unique (p := p₀) (q := p) (by rw [hp₀]; rfl) (by rw [hheld]; rfl)
    rw [Function.update_self] at hp
    cases hp
  | closed hw h => exact ⟨rfl, h, hl, by rw [hset.bytes hl]; exact hc⟩
  | stamping hp₀ => exact absurd hp₀ (hset.quiet _ _ _ _)
  | refused hset' hb =>
    rw [hset.eq hset'] at hc
    exact absurd hc hb

/-- A store leaves the lock file alone. -/
theorem Lived.lock_file {a : LiveAct} {evs : List ClientEvent}
    (h : Lived crc (fun _ a => a.Nominal) (.live cfg l) ops)
    (hs : l.step crc cfg a = some (l', evs)) :
    l'.store.fs.lookup .lock = l.store.fs.lookup .lock ∧
      l'.store.fs.read .lock = l.store.fs.read .lock := by
  have hinv := h.inv
  have hstep := liveStep_cases hs
  have hsame : l'.store.fs = l.store.fs → l'.store.fs.lookup .lock = l.store.fs.lookup .lock ∧
      l'.store.fs.read .lock = l.store.fs.read .lock := fun he => by rw [he]; exact ⟨rfl, rfl⟩
  have hw := h.world_inv
  rw [Host.world_live fun hd => hinv.still hd hstep] at hw
  obtain ⟨-, recs, pub, abs, hlink, -⟩ := hw
  cases hstep with
  | move m c evs' ha hs' =>
    simp only [Live.step, Live.move, ha, if_true] at hs
    obtain ⟨⟨c', evs''⟩, hc, he⟩ := Option.map_eq_some_iff.mp hs
    cases he
    rcases Clients.step_store hc with he | ⟨act, hact, -⟩
    · exact hsame (congrArg Sys.fs he)
    · have hact := step_cases hact
      exact ⟨hact.lock_name, hlink.rep.marker_step hact⟩
  | sync ok hh hl => cases ok <;> exact ⟨rfl, rfl⟩
  | _ => exact hsame rfl

/-- What holds of all processes together. -/
structure Fleet.Inv (crc : Bytes → UInt32) (f : Fleet) (ops : List Command) : Prop where
  openers : f.openers.Inv
  granted : f.openers.Granted
  phase : f.Phase crc ops

theorem Openers.Granted.work {fs : Fs FileName} (hg : o.Granted)
    (hr : fs.read .lock = o.fs.read .lock) : Openers.Granted { o with fs } := by
  intro q e i hq
  obtain ⟨b, hset, hc⟩ := hg q e i hq
  exact ⟨b, ⟨hr.trans hset.read, hset.nonblank, hset.quiet⟩, hc⟩

/-- The opener that had the lock file is gone. -/
theorem Fleet.Inv.close {fs : Fs FileName} (hinv : o.Inv) (hheld : o.procs p = .held .bitcask file)
    (hl : fs.lookup .lock = o.fs.lookup .lock)
    (h : Lived crc (fun _ a => a.Nominal) (.closed fs) ops) :
    Fleet.Inv crc ⟨{ o.close p with fs }, fun _ => none⟩ ops := by
  -- nobody else is past `try_lock`
  have hothers : ∀ q, ((o.close p).procs q).locked = false := by
    intro q
    by_cases hqp : q = p
    · subst hqp
      rw [show (o.close q).procs q = .idle from Function.update_self ..]
      rfl
    · rw [show (o.close p).procs q = o.procs q from Function.update_of_ne hqp ..]
      refine Bool.eq_false_iff.mpr fun hq => hqp (hinv.unique hq (by rw [hheld]; rfl))
  refine ⟨(hinv.work hheld hl).close p, fun q e i hq => ?_, .closed (fun q e i n hq => ?_) h⟩
  · have := hothers q
    rw [show (o.close p).procs q = .held e i from hq] at this
    cases this
  · have := hothers q
    rw [show (o.close p).procs q = .writing e i n from hq] at this
    cases this

theorem update_none_update (p : ℕ) (x : Option (Config × Live)) :
    Function.update (Function.update (fun _ => (none : Option (Config × Live))) p x) p none =
      fun _ => none := by
  rw [Function.update_idem, Function.update_eq_self]

/-- The store of the only process that has one. -/
theorem Fleet.Phase.of_store (h : Phase crc ⟨o, stores⟩ ops) (hp : stores p = some (cfg, l)) :
    stores = Function.update (fun _ => none) p (some (cfg, l)) ∧
      (∃ file, o.procs p = .held .bitcask file) ∧ l.store.fs = o.fs ∧
      Lived crc (fun _ a => a.Nominal) (.live cfg l) ops := by
  cases h with
  | @running _ _ p₀ cfg₀ l₀ file hp₀ hfs h =>
    by_cases hpp : p = p₀
    · subst hpp
      rw [Function.update_self] at hp
      cases hp
      exact ⟨rfl, ⟨file, hp₀⟩, hfs, h⟩
    · rw [Function.update_of_ne hpp] at hp
      cases hp
  | _ => cases hp

/-- All processes together make one history. -/
theorem FleetRun.inv {f : Fleet} (h : FleetRun crc f ops) : f.Inv crc ops := by
  induction h with
  | start =>
    exact ⟨.start _, (fun p e i hp => by cases hp), .closed (fun p e i n hp => by cases hp) .empty⟩
  | opener _ hp hs ih =>
    have hs := openerStep_cases hs
    exact ⟨ih.openers.step hs, ih.granted.step ih.openers hs, ih.phase.opener ih.openers hp hs⟩
  | @opened o stores ops p now file listing s cfg _ hp hheld hlist hopen ih =>
    obtain ⟨hinv, hg, hphase⟩ := ih
    obtain ⟨rfl, hlived, hl, hc⟩ := hphase.of_held hinv hg hp hheld
    have heq : openStore crc listing now o.fs = _ := openStore_of_mine hl hc
    have hlist' : (o.fs.create .lock).Lists listing := by rwa [Fs.create_of_some hl]
    have hopen' : (openStore crc listing now o.fs).result = .ok s := by rw [heq]; exact hopen
    have hlived' := hlived.opened cfg hlist' hopen'
    have hfs := ((openStore_any crc now hlist').ok rfl hopen').1
    rw [heq] at hfs
    have hname : s.fs.lookup .lock = o.fs.lookup .lock := by
      rw [hfs]
      exact loadStore_keeps.ok (s := o.fs) rfl hopen
    refine ⟨hinv.work hheld hname, fun q e i hq => ?_, .running hheld rfl hlived'⟩
    obtain rfl := hinv.unique (p := q) (q := p) (by rw [show o.procs q = _ from hq]; rfl)
      (by rw [hheld]; rfl)
    obtain ⟨rfl, -⟩ := Opener.held.inj (hheld.symm.trans hq)
    obtain ⟨b, hset, -⟩ := hg q _ _ hheld
    have hmark : s.fs.read .lock = some (asBytes engine) := hlived'.world_inv.1
    exact ⟨_, ⟨hmark, not_blank (e := .bitcask) (v := .mine) (by decide) (by simp), hset.quiet⟩, by decide⟩
  | @openErr o stores ops p now file listing e _ hp hheld hlist hopen ih =>
    -- `open` succeeds on every directory a history leads to
    obtain ⟨hinv, hg, hphase⟩ := ih
    obtain ⟨rfl, hlived, hl, hc⟩ := hphase.of_held hinv hg hp hheld
    have hlist' : (o.fs.create .lock).Lists listing := by rwa [Fs.create_of_some hl]
    obtain ⟨s, t, hs, -⟩ := hlived.world_inv.sound.2 listing now hlist'
    rw [show (Host.closed o.fs).world.fs = o.fs from rfl, openStore_of_mine hl hc] at hs
    exact absurd (hopen.symm.trans hs) (by simp)
  | @openCrash o stores ops p now file listing fs _ hp hheld hlist hcrash ih =>
    obtain ⟨hinv, hg, hphase⟩ := ih
    obtain ⟨rfl, hlived, hl, hc⟩ := hphase.of_held hinv hg hp hheld
    have hlist' : (o.fs.create .lock).Lists listing := by rwa [Fs.create_of_some hl]
    have hcrash' : (openStore crc listing now).Crashes o.fs fs := by
      show fs ∈ (openStore crc listing now o.fs).before
      rw [openStore_of_mine hl hc]
      exact List.mem_cons_of_mem _ hcrash
    -- the marker is stamped, and stays so
    have hmarker : MarkerOk (o.fs.read .lock) := (hlived.world_inv : Disk crc o.fs ops).openable.1
    have hstamped : fs.read .lock = some (asBytes engine) := by
      have hmine := lockFile_stamped hmarker
        (by rw [Fs.create_of_some hl, Fs.handle_of_some hl, hc]; simp)
      have hread : o.fs.read .lock = some (asBytes engine) := by
        rw [Fs.create_of_some hl, Fs.handle_of_some hl] at hmine
        rw [Fs.read, hl, Option.map_some, hmine]
      rcases ((openStore_any crc now hlist').crashes rfl hcrash').marker hmarker with hm | ⟨hm, -⟩
      · exact hm.trans hread
      · exact absurd hread hm
    exact .close hinv hheld (loadStore_keeps.crashes (s := o.fs) rfl hcrash)
      (.openCrash hlived hlist' hcrash' (not_torn hstamped (Or.inr le_rfl)))
  | @step o stores ops p cfg l l' a evs _ hp ha hs ih =>
    obtain ⟨hinv, hg, hphase⟩ := ih
    obtain ⟨rfl, ⟨file, hheld⟩, hfs, hlived⟩ := hphase.of_store hp
    have hself : l.withFs o.fs = l := by rw [← hfs]; rfl
    rw [hself] at hs
    obtain ⟨hname, hread⟩ := hlived.lock_file hs
    rw [hfs] at hname hread
    refine ⟨hinv.work hheld hname, hg.work hread, ?_⟩
    rw [Function.update_idem]
    refine .running hheld rfl (.step hlived (fun act he => ?_) hs)
    subst he
    exact ha
  | @crash o stores ops p cfg l _ hp ih =>
    obtain ⟨hinv, hg, hphase⟩ := ih
    obtain ⟨rfl, ⟨file, hheld⟩, hfs, hlived⟩ := hphase.of_store hp
    rw [update_none_update]
    exact .close hinv hheld rfl (hfs ▸ hlived.crash)
  | @exit o stores ops p cfg l _ hp hd ih =>
    obtain ⟨hinv, hg, hphase⟩ := ih
    obtain ⟨rfl, ⟨file, hheld⟩, hfs, hlived⟩ := hphase.of_store hp
    rw [update_none_update]
    exact .close hinv hheld rfl (hfs ▸ hlived.exit hd)

/-! ## Runs step by step -/

theorem FleetRun.of_openers {acts : List (ℕ × OpenerAct)} (h : FleetRun crc ⟨o, fun _ => none⟩ ops)
    (hs : Openers.steps acts o = some (o', evs)) : FleetRun crc ⟨o', fun _ => none⟩ ops := by
  induction acts generalizing o evs with
  | nil =>
    cases hs
    exact h
  | cons a acts ih =>
    obtain ⟨p, a⟩ := a
    simp only [Openers.steps, Option.bind_eq_bind, Option.bind_eq_some_iff, Option.pure_def,
      Option.some.injEq] at hs
    obtain ⟨⟨o₁, evs₁⟩, hs₁, ⟨o₂, evs₂⟩, hs₂, he⟩ := hs
    cases he
    exact ih (.opener h rfl hs₁) hs₂

theorem FleetRun.of_live {acts : List LiveAct} {evs : List ClientEvent}
    (h : FleetRun crc ⟨{ o with fs := l.store.fs }, Function.update (fun _ => none) p (some (cfg, l))⟩
      ops) (hn : ∀ a ∈ acts, a.Nominal) (hs : Live.steps crc cfg acts l = some (l', evs)) :
    FleetRun crc ⟨{ o with fs := l'.store.fs }, Function.update (fun _ => none) p (some (cfg, l'))⟩
      (ops ++ Live.finishedBy crc cfg acts l) := by
  induction acts generalizing l ops evs with
  | nil =>
    cases hs
    rwa [Live.finishedBy, List.append_nil]
  | cons a acts ih =>
    obtain ⟨⟨l₁, evs₁⟩, hs₁, hs⟩ := Option.bind_eq_some_iff.mp hs
    obtain ⟨⟨l₂, evs₂⟩, hs₂, he⟩ := Option.map_eq_some_iff.mp hs
    cases he
    rw [Live.finishedBy, hs₁, ← List.append_assoc]
    have hstep := FleetRun.step h (Function.update_self ..) (hn a List.mem_cons_self) hs₁
    rw [Function.update_idem] at hstep
    exact ih hstep (fun b hb => hn b (List.mem_cons_of_mem _ hb)) hs₂

/-- The calls of `acquire` by an opener that finds no marker, and by one that finds its own. -/
def takeNew (p : ℕ) : List (ℕ × OpenerAct) :=
  [(p, .openFile .bitcask), (p, .tryLock), (p, .readMarker), (p, .write 3), (p, .write 4), (p, .syncAll)]

def takeOwn (p : ℕ) : List (ℕ × OpenerAct) :=
  [(p, .openFile .bitcask), (p, .tryLock), (p, .readMarker)]

/-- Any number of processes share a directory, each may die at any moment, and no filesystem call of an
open store fails. At most one has a store open at a time, and that store agrees with the appends of all
processes before it: between two appends every `get` does, and so does the store that the next `open`
returns. -/
theorem fleet_sound {f : Fleet} (h : FleetRun crc f ops) :
    (∀ p q, f.stores p ≠ none → f.stores q ≠ none → p = q) ∧
    ∀ p cfg l, f.stores p = some (cfg, l) → (Host.live cfg l).world.Sound crc ops := by
  obtain ⟨o, stores⟩ := f
  obtain ⟨hinv, hg, hphase⟩ := h.inv
  constructor
  · intro p q hp hq
    obtain ⟨⟨cfg, l⟩, hp⟩ := Option.ne_none_iff_exists'.mp hp
    obtain ⟨⟨cfg', l'⟩, hq⟩ := Option.ne_none_iff_exists'.mp hq
    obtain ⟨-, ⟨_, hp⟩, -⟩ := hphase.of_store hp
    obtain ⟨-, ⟨_, hq⟩, -⟩ := hphase.of_store hq
    exact hinv.unique (by rw [hp]; rfl) (by rw [hq]; rfl)
  · intro p cfg l hp
    exact (hphase.of_store hp).2.2.2.world_inv.sound

/-- A process sets a key and dies, and another one opens the directory. -/
theorem fleet_sound_second_process : ∃ f l,
    FleetRun crc32 f [.set 0 (asBytes "a") (asBytes "1")] ∧ f.stores 1 = some (smallFiles, l) ∧
    f.stores 0 = none ∧ (Host.live smallFiles l).world.Sound crc32
      [.set 0 (asBytes "a") (asBytes "1")] := by
  have hrun : (Openers.steps (takeNew 0) (.start Fs.empty)).any fun r₀ =>
      (r₀.1.procs 0 = .held .bitcask 0 ∧ [FileName.lock].toFinset = r₀.1.fs.dir.keys) ∧
      (loadStore crc32 [.lock] 0 r₀.1.fs).result.toOption.any fun s₀ =>
      (Live.steps crc32 smallFiles (liveSet 0 "a" "1") (.start s₀)).any fun l₀ =>
      (Live.finishedBy crc32 smallFiles (liveSet 0 "a" "1") (.start s₀) =
        [.set 0 (asBytes "a") (asBytes "1")] ∧ l₀.1.store.lock.written crc32 = []) ∧
      (Openers.steps (takeOwn 1) (Openers.close { r₀.1 with fs := l₀.1.store.fs } 0)).any fun r₁ =>
      (r₁.1.procs 1 = .held .bitcask 0 ∧
        [FileName.lock, .data 1, .data 2].toFinset = r₁.1.fs.dir.keys) ∧
      (loadStore crc32 [.lock, .data 1, .data 2] 0 r₁.1.fs).result.toOption.isSome := by
    decide +kernel
  obtain ⟨⟨o₀, evs₀⟩, hs₀, hc⟩ := (Option.any_eq_true ..).mp hrun
  obtain ⟨⟨hheld₀, hkeys₀⟩, hc⟩ := of_decide_eq_true hc
  obtain ⟨s₀, hload₀, hc⟩ := (Option.any_eq_true ..).mp hc
  obtain ⟨⟨l, evs⟩, hlive, hc⟩ := (Option.any_eq_true ..).mp hc
  obtain ⟨⟨hops, hwritten⟩, hc⟩ := of_decide_eq_true hc
  obtain ⟨⟨o₁, evs₁⟩, hs₁, hc⟩ := (Option.any_eq_true ..).mp hc
  obtain ⟨⟨hheld₁, hkeys₁⟩, hc⟩ := of_decide_eq_true hc
  obtain ⟨s₁, hload₁⟩ := Option.isSome_iff_exists.mp hc
  have hn : ∀ a ∈ liveSet 0 "a" "1", a.Nominal := by decide +kernel
  have hok : ∀ (x : Except Fault Sys) s, x.toOption = some s → x = .ok s := by
    rintro (e | s) s' h
    · cases h
    · exact congrArg Except.ok (Option.some.inj h)
  have h₀ := FleetRun.opened smallFiles (FleetRun.of_openers .start hs₀) rfl hheld₀
    (Fs.lists_of_keys (by decide) hkeys₀) (hok _ _ hload₀)
  have h₁ := (FleetRun.of_live h₀ hn hlive).crash (Function.update_self ..)
  rw [update_none_update, hops, hwritten, List.append_nil, List.nil_append] at h₁
  have h₂ := FleetRun.opened smallFiles (h₁.of_openers hs₁) rfl hheld₁
    (Fs.lists_of_keys (by decide) hkeys₁) (hok _ _ hload₁)
  exact ⟨_, .start s₁, h₂, rfl, rfl, (fleet_sound h₂).2 1 smallFiles _ rfl⟩

end Fleet

end Bitcask
