import Bitcask.Storage.Crc32
import Bitcask.Storage.OpenNames

/-!
# The order of the listing

What `open` does with a directory in which other programs may have left files.

1. `Compatible`: a relation of two directories that the calls outside the walk keep. Those calls do the
   same in both, whatever trees the handles are kept in (`loadFrom_coupled`).
2. `openStore_order`: the result of `open` does not depend on the order of the listing, if no two
   files have the same id.
3. `openStore_readers`: the files that are replayed have the names of the store, if no other name is
   read as a file id.
4. `names_correspond`: both of the names of the file system, where names that are no spelling of the
   store's own are ruled out. They are not by `get_file_id`: a file named `1.data` is replayed, in
   the place of `000001.data` or not (`foreign_log_replayed`).
-/

namespace Bitcask

open LittleEndian FileSystem CrashHoare

/-! ## After the walk -/

/-- The same store, whatever tree its handles are kept in. -/
structure Loader.Same (l l' : Loader) : Prop where
  index : l.index = l'.index
  writer : l.writer = l'.writer
  readers : ∀ id : ℕ, l.readers[id]? = l'.readers[id]?

/-- The loops end alike. -/
def Loop.Agree {ε σ τ : Type} (V : σ → τ → Prop) : Loop ε σ → Loop ε τ → Prop
  | .done s torn, .done s' torn' => V s s' ∧ torn = torn'
  | .stop s e, .stop s' e' => V s s' ∧ e = e'
  | .panic, .panic => True
  | _, _ => False

theorem forRecords_agree {ε σ τ : Type} {body : σ → ℕ → Bytes → Except ε σ}
    {body' : τ → ℕ → Bytes → Except ε τ} {V : σ → τ → Prop}
    (h : ∀ s s' p b, V s s' → Agree V (body s p b) (body' s' p b)) {s : σ} {s' : τ} (hs : V s s')
    (fuel : ℕ) (r : RecordReader) :
    Loop.Agree V (forRecords body fuel r s) (forRecords body' fuel r s') := by
  induction fuel generalizing r s s' with
  | zero => trivial
  | succ fuel ih =>
    unfold forRecords
    cases r.nextRecord with
    | none => trivial
    | some x =>
      obtain ⟨x, r'⟩ := x
      cases x with
      | cleanEof => exact ⟨hs, rfl⟩
      | tornTail p => exact ⟨hs, rfl⟩
      | record p b =>
        have hb := h s s' p b hs
        simp only
        cases hbody : body s p b with
        | error e =>
          cases hbody' : body' s' p b with
          | error e' => rw [hbody, hbody'] at hb; exact ⟨hs, hb⟩
          | ok _ => rw [hbody, hbody'] at hb; exact hb.elim
        | ok s₁ =>
          cases hbody' : body' s' p b with
          | error _ => rw [hbody, hbody'] at hb; exact hb.elim
          | ok s₁' => rw [hbody, hbody'] at hb; exact ih hb r'

theorem dataRecord_same (crc : Bytes → UInt32) (fileId : ℕ) {l l' : Loader} (h : l.Same l') (p : ℕ)
    (b : Bytes) : Agree Loader.Same (dataRecord crc fileId l p b) (dataRecord crc fileId l' p b) := by
  unfold dataRecord
  cases Command.deserialize crc b with
  | error e => rfl
  | ok x =>
    obtain ⟨c, n⟩ := x
    cases c with
    | set ts key value => exact ⟨by simp [h.index], by simp [h.writer], h.readers⟩
    | rm ts key => exact ⟨by simp [h.index], by simp [h.writer], h.readers⟩

namespace Naming

variable {N M : Type} [DecidableEq N] [DecidableEq M] {nm : Naming N} {nm' : Naming M}
  {crc : Bytes → UInt32}

/-- A relation of two directories that the calls of `open` outside the walk keep, for the ids `P`. -/
structure Compatible (P : ℕ → Prop) (nm : Naming N) (nm' : Naming M) (R : Fs N → Fs M → Prop) :
    Prop where
  bytes : ∀ {s t}, R s t → s.bytes = t.bytes
  hint : ∀ {s t id}, R s t → P id → s.lookup (nm.hint id) = t.lookup (nm'.hint id)
  unlink : ∀ {s t id}, R s t → P id → R (s.unlink (nm.hint id)) (t.unlink (nm'.hint id))
  setLen : ∀ {s t}, R s t → ∀ i n, R (s.setLen i n) (t.setLen i n)
  append : ∀ {s t}, R s t → ∀ i b, R (s.append i b) (t.append i b)
  sync : ∀ {s t}, R s t → ∀ i, R (s.sync i) (t.sync i)
  data : ∀ {s t id}, R s t → P id →
    R (s.create (nm.data id)) (t.create (nm'.data id)) ∧ s.handle (nm.data id) = t.handle (nm'.data id)
  lock : ∀ {s t}, R s t →
    R (s.create nm.lock) (t.create nm'.lock) ∧ s.handle nm.lock = t.handle nm'.lock

theorem Compatible.eq (nm : Naming N) : Compatible (fun _ => True) nm nm Eq where
  bytes h := by rw [h]
  hint h _ := by rw [h]
  unlink h _ := by rw [h]
  setLen h _ _ := by rw [h]
  append h _ _ := by rw [h]
  sync h _ := by rw [h]
  data h _ := by rw [h]; exact ⟨rfl, rfl⟩
  lock h := by rw [h]; exact ⟨rfl, rfl⟩

section Load

variable {P : ℕ → Prop} {R : Fs N → Fs M → Prop} {s : Fs N} {t : Fs M} {l l' : Loader}

theorem openCreate_coupled {n : N} {n' : M} (hR : R (s.create n) (t.create n'))
    (hi : s.handle n = t.handle n') : Coupled R Eq (DirM.openCreate n) (DirM.openCreate n') s t :=
  Coupled.get_bind (Coupled.bind (Coupled.call hR) (fun _ _ h => h)
    fun _ _ _ _ _ hR' => Coupled.pure hR' hi)

theorem writeAll_coupled (hc : Compatible P nm nm' R) (hR : R s t) (i : Inode) (bytes : Bytes) :
    Coupled R (fun _ _ => True) (DirM.writeAll i bytes) (DirM.writeAll i bytes) s t := by
  induction bytes generalizing s t with
  | nil => exact Coupled.pure hR trivial
  | cons b bytes ih =>
    exact Coupled.bind (Coupled.call (hc.append hR i [b])) (fun _ _ h => h) fun _ _ _ _ _ hR' => ih hR'

theorem acquire_coupled (hc : Compatible P nm nm' R) (hR : R s t) (e : StoreType) :
    Coupled R (fun _ _ => True) (nm.acquire e) (nm'.acquire e) s t := by
  obtain ⟨hcreate, hhandle⟩ := hc.lock hR
  refine Coupled.bind (openCreate_coupled hcreate hhandle) (fun _ _ h => h) ?_
  rintro i _ s' t' rfl hR'
  refine Coupled.get_bind ?_
  rw [← hc.bytes hR']
  cases checkMarker e (s'.bytes i) with
  | blank =>
    exact Coupled.bind (writeAll_coupled hc hR' i _) (fun _ _ h => h)
      fun _ _ _ _ _ happ => Coupled.call (hc.sync happ i)
  | mine => exact Coupled.pure hR' trivial
  | refused err => exact Coupled.throw _ hR'

/-- The same loader, and the same decision to go on. -/
def SameStep (x y : Loader × Bool) : Prop := x.1.Same y.1 ∧ x.2 = y.2

theorem replayData_coupled (hc : Compatible P nm nm' R) (hR : R s t) (hl : l.Same l') (fileId : ℕ)
    (i : Inode) : Coupled R SameStep (replayData crc fileId i l) (replayData crc fileId i l') s t := by
  refine Coupled.get_bind ?_
  have hstart : Loader.Same { l with writer := { l.writer with offset := 0 } }
      { l' with writer := { l'.writer with offset := 0 } } :=
    ⟨hl.index, by simp [hl.writer], hl.readers⟩
  have hloop := forRecords_agree (fun l l' p b h => dataRecord_same crc fileId h p b) hstart
    ((s.bytes i).length + 1) (RecordReader.new (s.bytes i) (s.bytes i).length)
  simp only [forRecordsOf, ← hc.bytes hR]
  revert hloop
  generalize forRecords (dataRecord crc fileId) ((s.bytes i).length + 1)
    (RecordReader.new (s.bytes i) (s.bytes i).length)
    { l with writer := { l.writer with offset := 0 } } = x
  generalize forRecords (dataRecord crc fileId) ((s.bytes i).length + 1)
    (RecordReader.new (s.bytes i) (s.bytes i).length)
    { l' with writer := { l'.writer with offset := 0 } } = y
  intro hloop
  cases x with
  | panic =>
    cases y with
    | panic => exact Coupled.throw Fault.panic hR
    | done | stop => exact hloop.elim
  | stop a e =>
    cases y with
    | stop a' e' => obtain ⟨-, rfl⟩ := hloop; exact Coupled.throw (Fault.error e) hR
    | done | panic => exact hloop.elim
  | done a torn =>
    cases y with
    | panic | stop => exact hloop.elim
    | done a' torn' =>
      obtain ⟨ha, rfl⟩ := hloop
      cases torn with
      | none => exact Coupled.pure hR ⟨ha, rfl⟩
      | some position =>
        simp only [← ha.writer]
        by_cases hid : fileId = a.writer.currentFileId
        · rw [if_pos hid, if_pos hid]
          refine Coupled.bind (Coupled.call (hc.setLen hR _ _)) (fun _ _ h => h) ?_
          intro _ _ _ _ _ hR'
          exact Coupled.pure hR' ⟨⟨ha.index, rfl, ha.readers⟩, rfl⟩
        · rw [if_neg hid, if_neg hid]
          exact Coupled.throw _ hR

theorem replayFile_coupled (hc : Compatible P nm nm' R) (hR : R s t) (hl : l.Same l') {fileId : ℕ}
    (hid : P fileId) (i : Inode) :
    Coupled R SameStep (nm.replayFile crc l fileId i) (nm'.replayFile crc l' fileId i) s t := by
  obtain ⟨readers, index, writer⟩ := l
  obtain ⟨readers', _, _⟩ := l'
  obtain ⟨rfl, rfl, hreaders⟩ := hl
  have hsame : ∀ index : Index, Loader.Same ⟨readers, index, writer⟩ ⟨readers', index, writer⟩ :=
    fun _ => ⟨rfl, rfl, hreaders⟩
  refine Coupled.get_bind ?_
  rw [← hc.hint hR hid, ← hc.bytes hR]
  cases s.lookup (nm.hint fileId) with
  | none => exact replayData_coupled hc hR (hsame index) fileId i
  | some h =>
    simp only
    by_cases hcur : fileId ≠ writer.currentFileId
    · rw [if_pos hcur, if_pos hcur]
      -- a hint that does not decode is removed and the data file replayed
      have hdata : ∀ index : Index, Coupled R SameStep
          (Prog.call (·.unlink (nm.hint fileId)) >>= fun _ =>
            replayData crc fileId i ⟨readers, index, writer⟩)
          (Prog.call (·.unlink (nm'.hint fileId)) >>= fun _ =>
            replayData crc fileId i ⟨readers', index, writer⟩) s t := by
        intro index
        refine Coupled.bind (Coupled.call (hc.unlink hR hid)) (fun _ _ h => h) ?_
        intro _ _ _ _ _ hR'
        exact replayData_coupled hc hR' (hsame index) fileId i
      cases forRecordsOf (hintRecord crc fileId) (s.bytes h) index with
      | panic => exact Coupled.throw Fault.panic hR
      | stop index e => exact hdata index
      | done index torn =>
        cases torn with
        | none => exact Coupled.pure hR ⟨hsame index, rfl⟩
        | some p => exact hdata index
    · rw [if_neg hcur, if_neg hcur]
      exact replayData_coupled hc hR (hsame index) fileId i

/-- The loop over the files, by induction on their list. -/
theorem replay_coupled (hc : Compatible P nm nm' R) (hR : R s t) (hl : l.Same l')
    {files : List (ℕ × Inode)} (hP : ∀ f ∈ files, P f.1) :
    Coupled R Loader.Same (nm.replay crc files l) (nm'.replay crc files l') s t := by
  induction files generalizing l l' s t with
  | nil => exact Coupled.pure hR hl
  | cons f files ih =>
    refine Coupled.bind (replayFile_coupled hc hR hl (hP f List.mem_cons_self) f.2)
      (fun _ _ h => h) ?_
    rintro ⟨a, more⟩ ⟨b, more'⟩ s' t' ⟨hab, he⟩ hR'
    obtain rfl : more = more' := he
    cases more with
    | true => exact ih hR' hab fun f hf => hP f (List.mem_cons_of_mem _ hf)
    | false => exact Coupled.pure hR' hab

/-- The ids of the files to replay. -/
theorem replayed_ids {readers : Std.TreeMap ℕ Inode} {cur : ℕ} (hcur : P cur)
    (hP : ∀ id : ℕ, readers[id]? ≠ none → P id) (i : Inode) :
    ∀ f ∈ (readers.insert cur i).toList, P f.1 := by
  intro f hf
  have hget := Std.TreeMap.mem_toList_iff_getElem?_eq_some.mp hf
  by_cases hid : f.1 = cur
  · rw [hid]; exact hcur
  · rw [readers_insert_ne hid] at hget
    exact hP f.1 (by rw [hget]; simp)

/-- The part of `open` after the walk. -/
theorem loadFrom_coupled (hc : Compatible P nm nm' R) (hR : R s t) {scan scan' : Scan}
    (hs : scan.Same scan') (hcur : P (scan.maxId.getD 1))
    (hP : ∀ id : ℕ, scan.readHandlers[id]? ≠ none → P id) (now : ℕ) :
    Coupled R Loader.Same (nm.loadFrom crc now scan) (nm'.loadFrom crc now scan') s t := by
  obtain ⟨hmax, hreaders⟩ := hs
  unfold loadFrom
  simp only [← hmax]
  obtain ⟨hcreate, hhandle⟩ := hc.data hR hcur
  refine Coupled.bind (openCreate_coupled hcreate hhandle) (fun _ _ h => h) ?_
  rintro i _ s' t' rfl hR'
  have hinsert : ∀ id : ℕ, (scan.readHandlers.insert (scan.maxId.getD 1) i)[id]? =
      (scan'.readHandlers.insert (scan.maxId.getD 1) i)[id]? := by
    intro id
    by_cases hid : id = scan.maxId.getD 1
    · rw [hid, readers_insert_self, readers_insert_self]
    · rw [readers_insert_ne hid, readers_insert_ne hid, hreaders]
  have htoList := (Std.TreeMap.Equiv.of_forall_constGet?_eq hinsert).toList_eq
  rw [← htoList]
  refine replay_coupled hc hR' ?_ (replayed_ids hcur hP i)
  exact ⟨rfl, rfl, hinsert⟩

end Load

/-! ## The order of the listing -/

section Order

variable {fs : Fs N} {listing listing' : List N}

theorem Unambiguous.congr {fs' : Fs N} (h : nm.Unambiguous fs) (hl : fs'.lookup = fs.lookup) :
    nm.Unambiguous fs' := by
  unfold Unambiguous
  rw [hl]
  exact h

/-- The result of `open` does not depend on the order of the listing, if no two files have the
same id. -/
theorem openStore_order (crc : Bytes → UInt32) (now : ℕ)
    (hu : nm.Unambiguous (fs.create nm.lock)) (hl : (fs.create nm.lock).Lists listing)
    (hl' : (fs.create nm.lock).Lists listing') :
    Coupled Eq Loader.Same (nm.openStore crc listing now) (nm.openStore crc listing' now) fs fs := by
  refine Coupled.bind (Coupled.of_triple (nm.acquire_lookup .bitcask fs)) (fun _ _ h => h.1) ?_
  rintro _ _ s _ rfl ⟨rfl, hs⟩
  have hlist : s.Lists listing := by unfold Fs.Lists; rw [hs]; exact hl
  have hlist' : s.Lists listing' := by unfold Fs.Lists; rw [hs]; exact hl'
  obtain ⟨scan, hscan, hw⟩ := (walk (hu.congr hs) listing).returns rfl
  obtain ⟨scan', hscan', hw'⟩ := (walk (hu.congr hs) listing').returns rfl
  obtain ⟨hfs, hsame⟩ := hw.unique hw' hlist hlist'
  have hwalks : Coupled Eq Scan.Same (listing.foldlM nm.scanEntry ⟨∅, none⟩)
      (listing'.foldlM nm.scanEntry ⟨∅, none⟩) s s := by
    refine ⟨hfs, ?_⟩
    rw [hscan, hscan']
    exact hsame
  refine Coupled.bind hwalks (fun _ _ h => h) ?_
  rintro a b t _ hab rfl
  exact loadFrom_coupled (Compatible.eq nm) rfl hab trivial (fun _ _ => trivial) now

end Order

/-! ## The files that are replayed -/

/-- The handles are `readers` and the data names stand for the files `files`. -/
def Keeps (nm : Naming N) (readers : Std.TreeMap ℕ Inode) (files : ℕ → Option Inode) (l : Loader)
    (fs : Fs N) : Prop :=
  l.readers = readers ∧ ∀ id, fs.lookup (nm.data id) = files id

section Keeps

variable {readers : Std.TreeMap ℕ Inode} {files : ℕ → Option Inode}

theorem Keeps.unlink_hint {l : Loader} {fs : Fs N} (h : nm.Keeps readers files l fs) (id : ℕ) :
    nm.Keeps readers files l (fs.unlink (nm.hint id)) :=
  ⟨h.1, fun j => by rw [Fs.lookup_unlink_ne fs (nm.hint_ne_data id j).symm]; exact h.2 j⟩

/-- No record changes the handles. -/
theorem dataRecord_readers (readers : Std.TreeMap ℕ Inode) (crc : Bytes → UInt32) (fileId : ℕ)
    (l l' : Loader) (p : ℕ) (b : Bytes) (h : l = l' ∧ l.readers = readers) :
    Agree (fun l l' : Loader => l = l' ∧ l.readers = readers) (dataRecord crc fileId l p b)
      (dataRecord crc fileId l' p b) := by
  obtain ⟨rfl, hr⟩ := h
  unfold dataRecord
  cases Command.deserialize crc b with
  | error e => rfl
  | ok x =>
    obtain ⟨c, n⟩ := x
    cases c <;> exact ⟨rfl, hr⟩

theorem replayData_keeps (l : Loader) (fileId : ℕ) (i : Inode) :
    Triple (nm.Keeps readers files l) (replayData crc fileId i l)
      (fun x => nm.Keeps readers files x.1) (fun _ _ => True) (fun _ => True) := by
  refine Triple.get_bind fun s hs => ?_
  have hloop := forRecords_agree (dataRecord_readers readers crc fileId)
    (s := { l with writer := { l.writer with offset := 0 } }) ⟨rfl, hs.1⟩
    ((s.bytes i).length + 1) (RecordReader.new (s.bytes i) (s.bytes i).length)
  simp only [forRecordsOf]
  revert hloop
  generalize forRecords (dataRecord crc fileId) ((s.bytes i).length + 1)
    (RecordReader.new (s.bytes i) (s.bytes i).length)
    { l with writer := { l.writer with offset := 0 } } = x
  intro hloop
  cases x with
  | panic => exact Triple.throw fun _ _ => trivial
  | stop a e => exact Triple.throw fun _ _ => trivial
  | done a torn =>
    obtain ⟨⟨-, ha⟩, -⟩ := hloop
    cases torn with
    | none =>
      refine Triple.pure ?_
      rintro _ rfl
      exact ⟨ha, hs.2⟩
    | some position =>
      simp only
      split
      · refine Triple.bind (Q := fun _ s' => s' = s.setLen a.writer.file position)
          (Triple.call ?_ ?_) fun _ => Triple.pure ?_
        · exact fun _ _ => trivial
        · rintro _ rfl; rfl
        · rintro _ rfl; exact ⟨ha, hs.2⟩
      · exact Triple.throw fun _ _ => trivial

theorem replayFile_keeps (l : Loader) (fileId : ℕ) (i : Inode) :
    Triple (nm.Keeps readers files l) (nm.replayFile crc l fileId i)
      (fun x => nm.Keeps readers files x.1) (fun _ _ => True) (fun _ => True) := by
  refine Triple.get_bind fun s hs => ?_
  have hdata : Triple (· = s) (replayData crc fileId i l) (fun x => nm.Keeps readers files x.1)
      (fun _ _ => True) (fun _ => True) :=
    (replayData_keeps l fileId i).conseq (fun _ h => h ▸ hs) (fun _ _ h => h) (fun _ _ h => h)
      (fun _ h => h)
  cases s.lookup (nm.hint fileId) with
  | none => exact hdata
  | some h =>
    simp only
    split
    · have hunlink : ∀ index : Index, Triple (· = s)
          (Prog.call (·.unlink (nm.hint fileId)) >>= fun _ =>
            replayData crc fileId i { l with index }) (fun x => nm.Keeps readers files x.1)
          (fun _ _ => True) (fun _ => True) := by
        intro index
        refine Triple.bind (Q := fun _ => nm.Keeps readers files { l with index })
          (Triple.call ?_ ?_) fun _ => replayData_keeps _ fileId i
        · exact fun _ _ => trivial
        · rintro _ rfl
          exact Keeps.unlink_hint hs fileId
      cases forRecordsOf (hintRecord crc fileId) (s.bytes h) l.index with
      | panic => exact Triple.throw fun _ _ => trivial
      | stop index e => exact hunlink index
      | done index torn =>
        cases torn with
        | none =>
          refine Triple.pure ?_
          rintro _ rfl
          exact hs
        | some p => exact hunlink index
    · exact hdata

theorem replay_keeps (readers : Std.TreeMap ℕ Inode) (files : ℕ → Option Inode)
    (fs : List (ℕ × Inode)) (l : Loader) :
    Triple (nm.Keeps readers files l) (nm.replay crc fs l) (nm.Keeps readers files)
      (fun _ _ => True) (fun _ => True) := by
  induction fs generalizing l with
  | nil => exact Triple.pure fun _ h => h
  | cons f fs ih =>
    refine Triple.bind (replayFile_keeps l f.1 f.2) fun x => ?_
    obtain ⟨l', more⟩ := x
    cases more with
    | true => exact ih l'
    | false => exact Triple.pure fun _ h => h

/-- Every file whose id the walk reads has the name of the store. -/
def Canonical (nm : Naming N) (fs : Fs N) : Prop :=
  ∀ n id, fs.lookup n ≠ none → nm.classify n = .data id → n = nm.data id

theorem Canonical.unambiguous {fs : Fs N} (h : nm.Canonical fs) : nm.Unambiguous fs :=
  fun n m id hn hm hcn hcm => (h n id hn hcn).trans (h m id hm hcm).symm

theorem Canonical.congr {fs fs' : Fs N} (h : nm.Canonical fs) (hl : fs'.lookup = fs.lookup) :
    nm.Canonical fs' := by
  unfold Canonical
  rw [hl]
  exact h

theorem Canonical.create {fs : Fs N} {n : N} (h : nm.Canonical fs)
    (hn : ∀ id, nm.classify n = .data id → n = nm.data id) : nm.Canonical (fs.create n) := by
  intro m id hm hc
  by_cases hmn : m = n
  · rw [hmn] at hc ⊢
    exact hn id hc
  · rw [Fs.lookup_create_ne hmn] at hm
    exact h m id hm hc

theorem Canonical.unlink {fs : Fs N} (h : nm.Canonical fs) (n : N) : nm.Canonical (fs.unlink n) := by
  intro m id hm hc
  refine h m id (fun hnone => hm ?_) hc
  by_cases hmn : m = n
  · rw [hmn, Fs.lookup_unlink_self]
  · rw [Fs.lookup_unlink_ne fs hmn, hnone]

theorem loadFrom_readers {fs₁ : Fs N} {listing : List N} (hn : nm.Canonical fs₁) (now : ℕ)
    (scan : Scan) :
    Triple (Walked nm fs₁ listing scan) (nm.loadFrom crc now scan)
      (fun l s => ∀ (id : ℕ) (i : Inode), l.readers[id]? = some i → s.lookup (nm.data id) = some i)
      (fun _ _ => True) (fun _ => True) := by
  refine Triple.bind (Q := fun i s => s.lookup (nm.data (scan.maxId.getD 1)) = some i ∧
    ∀ id j, id ≠ scan.maxId.getD 1 → scan.readHandlers[id]? = some j →
      s.lookup (nm.data id) = some j) ?_ fun file => ?_
  · refine Triple.get_bind fun s hs => ?_
    refine Triple.bind (Q := fun _ s' => s' = s.create (nm.data (scan.maxId.getD 1)))
      (Triple.call ?_ ?_) fun _ => Triple.pure ?_
    · exact fun _ _ => trivial
    · rintro _ rfl; rfl
    · rintro _ rfl
      refine ⟨Fs.lookup_create_self, fun id j hid hj => ?_⟩
      obtain ⟨n, -, hc, hlook⟩ := (hs.readers id j).mp hj
      obtain rfl := hn n id (by rw [hlook]; simp) hc
      have hname : s.lookup (nm.data id) = some j := (hs.lookup_data hc).trans hlook
      by_cases he : nm.data id = nm.data (scan.maxId.getD 1)
      · rw [← he, Fs.create_of_some hname, hname]
      · rw [Fs.lookup_create_ne he, hname]
  · refine Triple.of_eq fun s hs => ?_
    obtain ⟨hfile, hrest⟩ := hs
    refine (replay_keeps (scan.readHandlers.insert (scan.maxId.getD 1) file)
      (fun id => s.lookup (nm.data id)) _ _).conseq ?_ ?_ (fun _ _ h => h) (fun _ h => h)
    · rintro _ rfl
      exact ⟨rfl, fun _ => rfl⟩
    · rintro l s' ⟨hr, hlook⟩ id i hi
      rw [hr] at hi
      rw [hlook]
      by_cases hid : id = scan.maxId.getD 1
      · subst hid
        rw [readers_insert_self] at hi
        exact hfile.trans hi
      · rw [readers_insert_ne hid] at hi
        exact hrest id i hid hi

/-- Only files with the names of the store are replayed, if no other name is read as a file id. -/
theorem openStore_readers {fs : Fs N} (hn : nm.Canonical (fs.create nm.lock)) (listing : List N)
    (now : ℕ) :
    Triple (· = fs) (nm.openStore crc listing now)
      (fun l s => ∀ (id : ℕ) (i : Inode), l.readers[id]? = some i → s.lookup (nm.data id) = some i)
      (fun _ _ => True) (fun _ => True) := by
  refine Triple.bind (Q := fun _ s => s.lookup = (fs.create nm.lock).lookup)
    ((nm.acquire_lookup .bitcask fs).conseq (fun _ h => h) (fun _ _ h => h) (fun _ _ _ => trivial)
      fun _ h => h) fun _ => ?_
  refine Triple.of_eq fun s hs => ?_
  have hn' : nm.Canonical s := hn.congr hs
  exact Triple.bind ((walk hn'.unambiguous listing).conseq (fun _ h => h) (fun _ _ h => h)
    (fun _ _ h => h.elim) fun _ h => h) fun scan => loadFrom_readers hn' now scan

end Keeps

end Naming

/-! ## The names of the file system -/

/-- Every name in the directory that is read as a file id is the plain one. -/
def PlainNames (fs : Fs Bytes) : Prop :=
  ∀ n id, fs.lookup n ≠ none → getFileId n = some id → Plain n

theorem PlainNames.canonical {fs : Fs Bytes} (h : PlainNames fs) : textNames.Canonical fs := by
  intro n id hn hc
  have hid := classify_eq_data.mp hc
  exact (plain_iff hid).mp (h n id hn hid)

theorem classify_lockFileName : classify lockFileName = .other := classify_text (n := .lock) trivial

theorem PlainNames.canonical_lock {fs : Fs Bytes} (h : PlainNames fs) :
    textNames.Canonical (fs.create textNames.lock) := by
  refine h.canonical.create fun id hc => ?_
  cases classify_lockFileName.symm.trans hc

/-- The names of all files of all ids are distinct, the walk sees each as what it
is and reads its id back. A name that is read as an id is the data file name of the id exactly if it is
plain. In a directory where those names are plain, no two files have one id, only files with data file
names are replayed, and the result of `open` does not depend on the order of the listing. -/
theorem names_correspond (crc : Bytes → UInt32) :
    (∀ id < 2 ^ 64, getFileId (dataFileName id) = some id) ∧
    Function.Injective FileName.text ∧
    (∀ n : FileName, n.Valid → classify n.text = n.entry) ∧
    (∀ s id, getFileId s = some id → (Plain s ↔ s = dataFileName id)) ∧
    ∀ fs : Fs Bytes, PlainNames fs →
      (∀ s t id, fs.lookup s ≠ none → fs.lookup t ≠ none → getFileId s = some id →
        getFileId t = some id → s = t) ∧
      (∀ listing now l, (textNames.openStore crc listing now fs).result = .ok l →
        ∀ (id : ℕ) (i : Inode), l.readers[id]? = some i →
          (textNames.openStore crc listing now fs).after.lookup (dataFileName id) = some i) ∧
      ∀ listing listing' now, (fs.create lockFileName).Lists listing →
        (fs.create lockFileName).Lists listing' →
        Coupled Eq Loader.Same (textNames.openStore crc listing now)
          (textNames.openStore crc listing' now) fs fs := by
  refine ⟨fun id h => getFileId_dataFileName h, FileName.text_injective, fun n h => classify_text h,
    fun s id h => plain_iff h, fun fs hplain => ⟨?_, ?_, ?_⟩⟩
  · intro s t id hs ht his hit
    rw [(plain_iff his).mp (hplain s id hs his), (plain_iff hit).mp (hplain t id ht hit)]
  · intro listing now l hl
    exact (Naming.openStore_readers hplain.canonical_lock listing now).ok rfl hl
  · intro listing listing' now hlist hlist'
    exact Naming.openStore_order crc now hplain.canonical_lock.unambiguous hlist hlist'

/-- A log with one record, and a file of another program. -/
def annotatedDir : Fs Bytes :=
  (Fs.empty.put (dataFileName 1) ((Command.set 5 (asBytes "a") (asBytes "1")).serialize crc32)).put
    (asBytes "notes.data") (asBytes "buy milk")

theorem annotatedDir_lists :
    annotatedDir.Lists [asBytes "000001.data", asBytes "notes.data"] :=
  Fs.lists_of_keys (by decide) (by decide +kernel)

/-- The listing of a log and a file of another program may be in either order. -/
theorem names_correspond_annotated :
    Coupled Eq Loader.Same
      (textNames.openStore crc32 [lockFileName, asBytes "000001.data", asBytes "notes.data"] 0)
      (textNames.openStore crc32 [asBytes "notes.data", asBytes "000001.data", lockFileName] 0)
      annotatedDir annotatedDir := by
  obtain ⟨-, -, -, -, hdir⟩ := names_correspond crc32
  have hplain : PlainNames annotatedDir := by
    intro n id hn hid
    have hmem := (annotatedDir_lists.2 n).mpr (Option.isSome_iff_ne_none.mpr hn)
    rcases List.mem_cons.mp hmem with rfl | hmem
    · decide
    · obtain rfl := List.mem_singleton.mp hmem
      rw [show getFileId (asBytes "notes.data") = none by decide] at hid
      cases hid
  exact (hdir annotatedDir hplain).2.2 _ _ 0 (Fs.lists_of_keys (by decide) (by decide +kernel))
    (Fs.lists_of_keys (by decide) (by decide +kernel))

/-- A store with two log files, and a file of another program whose name is read as the id of the
first. -/
def foreignDir : Fs Bytes :=
  ((Fs.empty.put (asBytes "000001.data")
    ((Command.set 5 (asBytes "a") (asBytes "1")).serialize crc32)).put (asBytes "1.data")
    ((Command.set 5 (asBytes "b") (asBytes "1")).serialize crc32)).put (asBytes "000002.data") []

/-- The keys of the log and of the foreign file in the index of an opened store. -/
def replayedKeys (listing : List Bytes) (fs : Fs Bytes) : Option (Bool × Bool) :=
  (textNames.openStore crc32 listing 0 fs).result.toOption.map fun l =>
    ((l.index.get (asBytes "a")).isSome, (l.index.get (asBytes "b")).isSome)

/-- The name `1.data` is read as the id of `000001.data`, so two files claim one id. Which of them is
replayed depends on the order of the listing: read last, the foreign file takes the place of the log. -/
theorem foreign_log_replayed :
    getFileId (asBytes "1.data") = some 1 ∧ asBytes "1.data" ≠ dataFileName 1 ∧
    (foreignDir.create lockFileName).Lists [lockFileName, asBytes "000001.data", asBytes "1.data",
      asBytes "000002.data"] ∧
    (foreignDir.create lockFileName).Lists [lockFileName, asBytes "1.data", asBytes "000001.data",
      asBytes "000002.data"] ∧
    replayedKeys [lockFileName, asBytes "000001.data", asBytes "1.data", asBytes "000002.data"]
      foreignDir = some (false, true) ∧
    replayedKeys [lockFileName, asBytes "1.data", asBytes "000001.data", asBytes "000002.data"]
      foreignDir = some (true, false) := by
  refine ⟨by decide, by decide +kernel, Fs.lists_of_keys (by decide) (by decide +kernel),
    Fs.lists_of_keys (by decide) (by decide +kernel), by decide +kernel, by decide +kernel⟩

end Bitcask
