import Bitcask.Storage.Opened

/-!
# Opening any directory

`open` on a directory whose files may hold anything. If it fails, it has not panicked, and every
data file is there with the bytes it had. If it returns, the active file is the data file with the
highest id, every other data file is as it was, and the active file has lost at most a torn tail
(`openStore_any`).
-/

namespace Bitcask

open LittleEndian FileSystem CrashHoare SegmentedLog

/-- The directory has lost hints and nothing else. -/
structure HintsGone (fs₂ fs : Fs FileName) : Prop where
  keeps : ∀ {n i}, fs.lookup n = some i → fs₂.lookup n = some i
  others : ∀ n, (∀ id, n ≠ .hint id) → fs.lookup n = fs₂.lookup n
  bytes : fs.bytes = fs₂.bytes
  synced : fs.synced = fs₂.synced

section HintsGone

variable {fs₀ fs₂ fs : Fs FileName}

theorem HintsGone.refl (fs : Fs FileName) : HintsGone fs fs :=
  ⟨fun h => h, fun _ _ => rfl, rfl, rfl⟩

theorem HintsGone.unlink (h : HintsGone fs₂ fs) (id : ℕ) :
    HintsGone fs₂ (fs.unlink (.hint id)) := by
  refine ⟨fun {n i} hn => ?_, fun n hn => ?_, h.bytes, h.synced⟩
  · by_cases hnid : n = .hint id
    · rw [hnid, Fs.lookup_unlink_self] at hn; cases hn
    · rw [Fs.lookup_unlink_ne fs hnid] at hn; exact h.keeps hn
  · rw [Fs.lookup_unlink_ne fs (hn id)]
    exact h.others n hn

theorem HintsGone.opening (h : HintsGone fs₂ fs) (ho : Opening fs₀ fs₂) : Opening fs₀ fs where
  data {id i} hi := by
    obtain ⟨h1, h2, h3⟩ := ho.data hi
    rw [h.others _ (by simp), h.bytes, h.synced]
    exact ⟨h1, h2, h3⟩
  fresh {id i} hi := by
    rw [h.others _ (by simp)] at hi
    rw [h.bytes]
    exact ho.fresh hi
  hint {id i} hi := by
    rw [h.bytes, h.synced]
    exact ho.hint (h.keeps hi)
  marker hm := by
    rw [Fs.read_congr (h.others _ (by simp)) fun i _ => by rw [h.bytes]]
    exact ho.marker hm

end HintsGone

section Replay

variable {crc : Bytes → UInt32} {fs₀ fs₂ fs : Fs FileName} {l : Loader} {id : ℕ} {i : Inode}

/-- A sealed file and its hint, whatever they hold. -/
theorem replayFile_any (hne : id ≠ l.writer.currentFileId) (h : HintsGone fs₂ fs)
    (ho : Opening fs₀ fs₂) :
    Triple (· = fs) (storeNames.replayFile crc l id i)
      (fun r fs' => HintsGone fs₂ fs' ∧ r.2 = true ∧ r.1.readers = l.readers ∧
        r.1.writer.currentFileId = l.writer.currentFileId ∧ r.1.writer.file = l.writer.file)
      (fun e fs' => e ≠ .panic ∧ HintsGone fs₂ fs') (Opening fs₀) := by
  have hdata : ∀ {l' : Loader} {fs' : Fs FileName}, HintsGone fs₂ fs' →
      l'.readers = l.readers → l'.writer = l.writer → Triple (· = fs') (replayData crc id i l')
        (fun r fs' => HintsGone fs₂ fs' ∧ r.2 = true ∧ r.1.readers = l.readers ∧
          r.1.writer.currentFileId = l.writer.currentFileId ∧ r.1.writer.file = l.writer.file)
        (fun e fs' => e ≠ .panic ∧ HintsGone fs₂ fs') (Opening fs₀) := by
    intro l' fs' hgone hr hw
    refine (replayData_sealed (by rw [hw]; exact hne) _).conseq (fun _ h => h) ?_ ?_ (fun _ h => h)
    · rintro r _ ⟨rfl, hmore, -, hext, -⟩
      exact ⟨hgone, hmore, hext.readers.trans hr, hext.cur.trans (by rw [hw]),
        hext.file.trans (by rw [hw])⟩
    · rintro e _ ⟨he, rfl, -⟩
      exact ⟨he, hgone⟩
  have hfallback : ∀ index, Triple (· = fs)
      (do Prog.call (·.unlink (.hint id)); replayData crc id i { l with index })
        (fun r fs' => HintsGone fs₂ fs' ∧ r.2 = true ∧ r.1.readers = l.readers ∧
          r.1.writer.currentFileId = l.writer.currentFileId ∧ r.1.writer.file = l.writer.file)
        (fun e fs' => e ≠ .panic ∧ HintsGone fs₂ fs') (Opening fs₀) := by
    intro index
    refine Triple.bind (Q := fun _ fs' => fs' = fs.unlink (.hint id)) (Triple.call ?_ ?_) fun _ => ?_
    · rintro _ rfl; exact h.opening ho
    · rintro _ rfl; rfl
    · exact hdata (h.unlink id) rfl rfl
  refine Triple.get_bind ?_
  rintro s rfl
  cases hh : s.lookup (.hint id) with
  | none => exact hdata h rfl rfl
  | some j =>
    simp only [if_pos hne]
    split
    · rename_i hrun
      exact absurd hrun (forRecordsOf_ne_panic _ _)
    · refine Triple.pure ?_
      rintro _ rfl
      exact ⟨h, rfl, rfl, rfl, rfl⟩
    · exact hfallback _
    · exact hfallback _

/-- What the replay of the sealed files and the active file of the directory `fs₂` leaves. -/
structure ReplayedAny (crc : Bytes → UInt32) (fs₂ : Fs FileName) (readers : Std.TreeMap ℕ Inode)
    (cur : ℕ) (file : Inode) (l : Loader) (fs : Fs FileName) : Prop where
  readers_eq : l.readers = readers
  cur_eq : l.writer.currentFileId = cur
  file_eq : l.writer.file = file
  readable : Readable crc (fs₂.bytes file)
  keeps : ∀ {n i}, fs.lookup n = some i → fs₂.lookup n = some i
  others : ∀ n, (∀ id, n ≠ .hint id) → fs.lookup n = fs₂.lookup n
  bytes : ∀ i, i ≠ file → fs.bytes i = fs₂.bytes i

theorem replay_any {front : List (ℕ × Inode)} (hne : ∀ f ∈ front, f.1 ≠ l.writer.currentFileId)
    (h : HintsGone fs₂ fs) (ho : Opening fs₀ fs₂) :
    Triple (· = fs) (storeNames.replay crc (front ++ [(l.writer.currentFileId, l.writer.file)]) l)
      (ReplayedAny crc fs₂ l.readers l.writer.currentFileId l.writer.file)
      (fun e fs => e ≠ .panic ∧ HintsGone fs₂ fs) (Opening fs₀) := by
  induction front generalizing l fs with
  | nil =>
    have hfile : Triple (· = fs) (storeNames.replayFile crc l l.writer.currentFileId l.writer.file)
        (fun r fs => ReplayedAny crc fs₂ l.readers l.writer.currentFileId l.writer.file r.1 fs)
        (fun e fs => e ≠ .panic ∧ HintsGone fs₂ fs) (Opening fs₀) := by
      have hdata : Triple (· = fs) (replayData crc l.writer.currentFileId l.writer.file l)
          (fun r fs => ReplayedAny crc fs₂ l.readers l.writer.currentFileId l.writer.file r.1 fs)
          (fun e fs => e ≠ .panic ∧ HintsGone fs₂ fs) (Opening fs₀) := by
        refine (replayData_active rfl rfl (h.opening ho)).conseq (fun _ h => h) ?_ ?_ (fun _ h => h)
        · rintro r fs' ⟨hread, hext, -, hfs, -⟩
          rw [h.bytes] at hread
          refine ⟨hext.readers, hext.cur, hext.file, hread, ?_, ?_, ?_⟩ <;>
            rcases hfs with ⟨rfl, -⟩ | rfl
          · exact h.keeps
          · exact h.keeps
          · exact h.others
          · exact h.others
          · exact fun i _ => by rw [h.bytes]
          · exact fun i hi => by rw [Fs.bytes_setLen_ne hi, h.bytes]
        · rintro e _ ⟨he, rfl, -⟩
          exact ⟨he, h⟩
      intro s hs
      subst hs
      rw [replayFile_active rfl]
      exact hdata _ rfl
    refine Triple.bind hfile ?_
    rintro ⟨l', more⟩
    cases more <;> exact Triple.pure fun _ h => h
  | cons f front ih =>
    refine Triple.bind (replayFile_any (hne f List.mem_cons_self) h ho) ?_
    rintro ⟨l', more⟩
    refine Triple.of_eq ?_
    rintro s ⟨hgone, rfl, hreaders, hcur, hfile⟩
    have hrest := ih (l := l') (by rw [hcur]; exact fun g hg => hne g (List.mem_cons_of_mem _ hg))
      hgone
    rw [hreaders, hcur, hfile] at hrest
    exact hrest

end Replay

/-- A store just opened on the directory `fs₀`, whatever its files hold. -/
structure OpenedAny (crc : Bytes → UInt32) (fs₀ : Fs FileName) (s : Sys) : Prop where
  free : s.lock = .free
  idle : s.merge = .idle none
  readers : ∀ id i, s.readers[id]? = some i ↔ s.fs.lookup (.data id) = some i
  current : s.fs.lookup (.data s.writer.currentFileId) = some s.writer.file
  le_current : ∀ {id i}, s.fs.lookup (.data id) = some i → id ≤ s.writer.currentFileId
  compact : ∀ id, s.fs.lookup (.compact id) = none
  orphan : ∀ id, s.fs.lookup (.hint id) ≠ none → s.fs.lookup (.data id) ≠ none
  data : ∀ {id i}, fs₀.lookup (.data id) = some i → s.fs.lookup (.data id) = some i ∧
    (id ≠ s.writer.currentFileId → s.fs.bytes i = fs₀.bytes i) ∧
    (id = s.writer.currentFileId → Readable crc (fs₀.bytes i))
  fresh : ∀ {id i}, s.fs.lookup (.data id) = some i → fs₀.lookup (.data id) = some i ∨
    id = 1 ∧ ∀ id, fs₀.lookup (.data id) = none

section Open

variable {crc : Bytes → UInt32} {fs₀ fs₂ fs : Fs FileName} {listing : List FileName}

theorem ReplayedAny.opened {readers : Std.TreeMap ℕ Inode} {cur : ℕ} {file : Inode} {l : Loader}
    (he : Elected fs₀ fs₂ readers cur file) (h : ReplayedAny crc fs₂ readers cur file l fs) :
    OpenedAny crc fs₀ (l.store fs) := by
  have hdata : ∀ id, fs.lookup (.data id) = fs₂.lookup (.data id) := fun id => h.others _ (by simp)
  obtain ⟨hcur, hfile⟩ := And.intro h.cur_eq h.file_eq
  rw [Loader.store, h.readers_eq]
  refine ⟨rfl, rfl, fun id i => ?_, ?_, fun {id i} hi => ?_, fun id => ?_, fun id hh => ?_,
    fun {id i} hi => ⟨?_, fun hid => ?_, fun hid => ?_⟩, fun {id i} hi => ?_⟩ <;>
    simp only [hcur, hfile] at *
  · rw [hdata]; exact he.readers id i
  · rw [hdata]; exact he.current
  · rw [hdata] at hi; exact he.le_current hi
  · rw [h.others _ (by simp)]; exact he.compact id
  · obtain ⟨j, hj⟩ := Option.ne_none_iff_exists'.mp hh
    obtain ⟨i, hi⟩ := Option.ne_none_iff_exists'.mp (he.orphan id (by rw [h.keeps hj]; simp))
    rw [hdata, (he.opening.data hi).1]
    simp
  · rw [hdata]; exact (he.opening.data hi).1
  · obtain ⟨hd, hb, -⟩ := he.opening.data hi
    have hne : i ≠ file := by
      rintro rfl
      exact hid (FileName.data.inj (fs₂.dir_inj _ _ _ hd he.current))
    rw [h.bytes i hne, hb]
  · obtain ⟨hd, hb, -⟩ := he.opening.data hi
    rw [hid] at hd
    obtain rfl := Option.some.inj (hd.symm.trans he.current)
    rw [← hb]
    exact h.readable
  · rw [hdata] at hi
    exact (he.opening.fresh hi).imp_right fun hf => ⟨hf.1, hf.2.1⟩

/-- `open` on any directory. -/
theorem openStore_any (crc : Bytes → UInt32) (now : ℕ)
    (hlist : (fs₀.create .lock).Lists listing) :
    Triple (· = fs₀) (openStore crc listing now) (fun s fs => s.fs = fs ∧ OpenedAny crc fs₀ s)
      (fun e fs => e ≠ .panic ∧ Opening fs₀ fs) (Opening fs₀) := by
  refine openStore_rule hlist (fun _ h => h) (fun _ _ hp ho _ => ⟨hp, ho⟩) ?_
  intro fs₂ readers cur file he
  obtain ⟨front, hfront, hfiles, -⟩ := he.toList
  rw [hfront]
  refine (replay_any (l := ⟨readers, Index.empty, ⟨cur, file, 0, 0, now, 0⟩⟩)
    (fun f hf => (hfiles f hf).1) (HintsGone.refl fs₂) he.opening).conseq (fun _ h => h) ?_ ?_
    (fun _ h => h)
  · exact fun l fs hdone => ⟨rfl, hdone.opened he⟩
  · exact fun e fs hfail => ⟨hfail.1, hfail.2.opening he.opening⟩

end Open

end Bitcask
