import Bitcask.Storage.ReplaySpec
import Bitcask.Storage.Represent

/-!
# An opened store

`openStore_spec` puts the parts of `open` together: on a directory with faithful hints, `open`
returns a store with `Opened`, or fails because the directory is not `Openable`, and a crash inside
it leaves the directory as `Opening` says. An opened store has the representation invariant
(`Opened.rep`).
-/

namespace Bitcask

open LittleEndian FileSystem CrashHoare SegmentedLog

variable (crc : Bytes → UInt32)

/-- Every data file can be opened and mapped. -/
def Bounded (fs : Fs FileName) : Prop :=
  ∀ {id i}, fs.lookup (.data id) = some i → (fs.bytes i).length < maxFileLen

/-- The marker allows the engine, the data files are sequences of records, and only the last one
may have a torn tail. -/
def Openable (fs : Fs FileName) : Prop :=
  MarkerOk (fs.read .lock) ∧ ∀ {id i}, fs.lookup (.data id) = some i → Readable crc (fs.bytes i) ∧
    ((∃ id', id < id' ∧ fs.lookup (.data id') ≠ none) → Sealed crc (fs.bytes i))

/-- The records of the files of a directory. -/
def recordsIn (fs : Fs FileName) (i : Inode) : List Command := recordsOf crc (fs.bytes i)

/-- A store just opened on the directory `fs₀`. -/
structure Opened (fs₀ : Fs FileName) (s : Sys) : Prop where
  free : s.lock = .free
  idle : s.merge = .idle none
  readers : ∀ id i, s.readers[id]? = some i ↔ s.fs.lookup (.data id) = some i
  current : s.fs.lookup (.data s.writer.currentFileId) = some s.writer.file
  le_current : ∀ {id i}, s.fs.lookup (.data id) = some i → id ≤ s.writer.currentFileId
  sealed : ∀ {id i}, s.fs.lookup (.data id) = some i → Sealed crc (s.fs.bytes i)
  bounded : Bounded s.fs
  offset : s.writer.offset = (s.fs.bytes s.writer.file).length
  placed : s.index.Placed
  represents : ∃ front, s.readers.toList = front ++ [(s.writer.currentFileId, s.writer.file)] ∧
    Represents crc (recordsIn crc s.fs) (s.readers[·]?)
      (front.flatMap (fun f => replayed (fs₀.lookup (.hint f.1)).isSome (recordsIn crc s.fs f.2)) ++
        events (recordsIn crc s.fs s.writer.file)) s.index
  compact : ∀ id, s.fs.lookup (.compact id) = none
  orphan : ∀ id, s.fs.lookup (.hint id) ≠ none → fs₀.lookup (.data id) ≠ none
  hint : ∀ {id h}, s.fs.lookup (.hint id) = some h →
    fs₀.lookup (.hint id) = some h ∧ s.fs.bytes h = fs₀.bytes h ∧ s.fs.synced h = fs₀.synced h
  /-- Replayed with the hints `open` leaves, a sealed file says what it said. -/
  kept : ∀ {id i}, s.fs.lookup (.data id) = some i → id ≠ s.writer.currentFileId →
    replayed (s.fs.lookup (.hint id)).isSome (recordsIn crc s.fs i) =
      replayed (fs₀.lookup (.hint id)).isSome (recordsIn crc s.fs i)
  old : ∀ {id i}, fs₀.lookup (.data id) = some i → s.fs.lookup (.data id) = some i ∧
    Readable crc (fs₀.bytes i) ∧ s.fs.bytes i = encodeAll crc (recordsOf crc (fs₀.bytes i)) ∧
    min (fs₀.synced i) (s.fs.bytes i).length ≤ s.fs.synced i ∧ s.fs.synced i ≤ fs₀.synced i
  old_sealed : ∀ {id i}, fs₀.lookup (.data id) = some i → id ≠ s.writer.currentFileId →
    Sealed crc (fs₀.bytes i)
  fresh : ∀ {id i}, s.fs.lookup (.data id) = some i → fs₀.lookup (.data id) = some i ∨
    id = 1 ∧ (∀ id, fs₀.lookup (.data id) = none) ∧ s.fs.bytes i = []
  fresh_synced : ∀ {id i}, s.fs.lookup (.data id) = some i → fs₀.lookup (.data id) = none →
    s.fs.synced i = 0
  marker : MarkerOk (fs₀.read .lock) → s.fs.read .lock = some (asBytes engine)
  marker_synced : MarkerSynced fs₀ → MarkerSynced s.fs

/-! ## Electing the active file -/

/-- The directory and the handles when the replay begins. -/
structure Elected (fs₀ fs : Fs FileName) (readers : Std.TreeMap ℕ Inode) (cur : ℕ) (file : Inode) :
    Prop where
  opening : Opening fs₀ fs
  readers : ∀ id i, readers[id]? = some i ↔ fs.lookup (.data id) = some i
  current : fs.lookup (.data cur) = some file
  le_current : ∀ {id i}, fs.lookup (.data id) = some i → id ≤ cur
  compact : ∀ id, fs.lookup (.compact id) = none
  orphan : ∀ id, fs.lookup (.hint id) ≠ none → fs₀.lookup (.data id) ≠ none
  hint : ∀ id, fs₀.lookup (.data id) ≠ none → fs.lookup (.hint id) = fs₀.lookup (.hint id)
  fresh_synced : ∀ {id i}, fs.lookup (.data id) = some i → fs₀.lookup (.data id) = none →
    fs.synced i = 0
  marker : MarkerOk (fs₀.read .lock) → fs.read .lock = some (asBytes engine)
  marker_synced : MarkerSynced fs₀ → MarkerSynced fs

section Elect

variable {fs₀ fs₁ fs : Fs FileName} {listing : List FileName} {scan : Scan}

/-- After the walk, the handles are those of the data files of the directory. -/
theorem Scanned.readers_iff (hs : Scanned fs₁ listing scan fs)
    (hlist : ∀ n, n ∈ listing ↔ (fs₁.lookup n).isSome) (id : ℕ) (i : Inode) :
    scan.readHandlers[id]? = some i ↔ fs.lookup (.data id) = some i := by
  rw [hs.readers, hs.data]
  refine ⟨fun h => h.2, fun h => ⟨(hlist _).mpr (by rw [h]; rfl), h⟩⟩

/-- The walk leaves no unfinished output. -/
theorem Scanned.no_compact (hs : Scanned fs₁ listing scan fs)
    (hlist : ∀ n, n ∈ listing ↔ (fs₁.lookup n).isSome) (id : ℕ) :
    fs.lookup (.compact id) = none := by
  by_contra hne
  obtain ⟨i, hi⟩ := Option.ne_none_iff_exists'.mp hne
  have hmem : FileName.compact id ∈ listing := (hlist _).mpr (by rw [hs.keeps hi]; rfl)
  rw [hs.compact id hmem] at hi; cases hi

/-- The walk leaves no hint without its data file. -/
theorem Scanned.no_orphan (hs : Scanned fs₁ listing scan fs)
    (hlist : ∀ n, n ∈ listing ↔ (fs₁.lookup n).isSome) (id : ℕ)
    (hh : fs.lookup (.hint id) ≠ none) : fs.lookup (.data id) ≠ none := by
  intro hd
  obtain ⟨i, hi⟩ := Option.ne_none_iff_exists'.mp hh
  have hmem : FileName.hint id ∈ listing := (hlist _).mpr (by rw [hs.keeps hi]; rfl)
  exact hh (hs.orphan id hmem (by rw [← hs.data]; exact hd))

/-- The highest id that the walk has found is that of a data file, and no data file is above it. -/
theorem Scanned.highest (hs : Scanned fs₁ listing scan fs)
    (hlist : ∀ n, n ∈ listing ↔ (fs₁.lookup n).isSome) {m : ℕ} (hmax : scan.maxId = some m) :
    ∃ i, fs.lookup (.data m) = some i ∧ ∀ id j, fs.lookup (.data id) = some j → id ≤ m := by
  obtain ⟨i, hi⟩ := Option.ne_none_iff_exists'.mp (hs.max_mem m hmax)
  refine ⟨i, (hs.readers_iff hlist m i).mp hi, fun id j hj => ?_⟩
  obtain ⟨m', hm', hle⟩ := hs.max_le id j ((hs.readers_iff hlist id j).mpr hj)
  rw [hmax] at hm'
  rwa [Option.some.inj hm']

/-- A walk that has found no id has met no data file. -/
theorem Scanned.no_data (hs : Scanned fs₁ listing scan fs)
    (hlist : ∀ n, n ∈ listing ↔ (fs₁.lookup n).isSome) (hmax : scan.maxId = none) (id : ℕ) :
    fs.lookup (.data id) = none := by
  by_contra hne
  obtain ⟨i, hi⟩ := Option.ne_none_iff_exists'.mp hne
  obtain ⟨m, hm, -⟩ := hs.max_le id i ((hs.readers_iff hlist id i).mpr hi)
  rw [hmax] at hm; cases hm

/-- The first data file of a directory without one is empty and not synced. -/
theorem first_data_file (hnone : ∀ id, fs.lookup (.data id) = none) {id : ℕ} {i : Inode}
    (hi : (fs.create (.data 1)).lookup (.data id) = some i) :
    id = 1 ∧ (fs.create (.data 1)).bytes i = [] ∧ (fs.create (.data 1)).synced i = 0 := by
  have hid : id = 1 := by
    by_contra hne
    rw [Fs.lookup_create_ne (by simpa using hne), hnone id] at hi; cases hi
  subst hid
  rw [Fs.lookup_create_self, Fs.handle_of_none (hnone 1), Option.some.injEq] at hi
  rw [← hi]
  exact ⟨rfl, Fs.bytes_create_next (hnone 1), Fs.synced_create_next (hnone 1)⟩

theorem Opening.create_first (h : Opening fs₀ fs) (hnone₀ : ∀ id, fs₀.lookup (.data id) = none)
    (hnone : ∀ id, fs.lookup (.data id) = none) : Opening fs₀ (fs.create (.data 1)) where
  data hi := by rw [hnone₀] at hi; cases hi
  fresh hi := by
    obtain ⟨hid, hnil, -⟩ := first_data_file hnone hi
    exact Or.inr ⟨hid, hnone₀, hnil⟩
  hint {id j} hj := by
    rw [Fs.lookup_create_ne (by simp)] at hj
    have hlt := fs.dir_lt _ _ hj
    rw [Fs.bytes_create_of_lt hlt, Fs.synced_create_of_lt hlt]
    exact h.hint hj
  marker hm := by
    rw [Fs.read_create_ne (by simp)]
    exact h.marker hm

/-- The data file with the highest id is the active one; a directory without data files gets its
first one. -/
theorem Scanned.elected (hs : Scanned fs₁ listing scan fs) (ho : Opening fs₀ fs)
    (hlist : ∀ n, n ∈ listing ↔ (fs₁.lookup n).isSome)
    (hnames : ∀ n, n ≠ .lock → fs₁.lookup n = fs₀.lookup n)
    (hmarker : MarkerOk (fs₀.read .lock) → fs₁.read .lock = some (asBytes engine))
    (hsynced : MarkerSynced fs₀ → MarkerSynced fs₁) :
    Elected fs₀ (fs.create (.data (scan.maxId.getD 1)))
      (scan.readHandlers.insert (scan.maxId.getD 1) (fs.handle (.data (scan.maxId.getD 1))))
      (scan.maxId.getD 1) (fs.handle (.data (scan.maxId.getD 1))) := by
  have hmarker' : MarkerOk (fs₀.read .lock) → fs.read .lock = some (asBytes engine) := by
    intro hm
    rw [Fs.read_congr hs.lock fun i _ => by rw [hs.bytes]]
    exact hmarker hm
  have hsynced' : MarkerSynced fs₀ → MarkerSynced fs := by
    intro hm i hi
    rw [hs.lock] at hi
    rw [hs.bytes, hs.synced]
    exact hsynced hm i hi
  have hhint : ∀ id, fs₀.lookup (.data id) ≠ none → fs.lookup (.hint id) = fs₀.lookup (.hint id) := by
    intro id hd
    rw [hs.hint id (by rw [hnames _ (by simp)]; exact hd), hnames _ (by simp)]
  have hiff := hs.readers_iff hlist
  have hdata₀ : ∀ id, fs.lookup (.data id) = fs₀.lookup (.data id) := fun id =>
    (hs.data id).trans (hnames _ (by simp))
  cases hmax : scan.maxId with
  | some m =>
    obtain ⟨i, hm, hle⟩ := hs.highest hlist hmax
    rw [Option.getD_some, Fs.create_of_some hm, Fs.handle_of_some hm]
    refine ⟨ho, fun id j => ?_, hm, fun {id j} hj => hle id j hj, hs.no_compact hlist,
      fun id hh => hdata₀ id ▸ hs.no_orphan hlist id hh, hhint, fun {id j} hj h₀ => ?_, hmarker',
      hsynced'⟩
    · by_cases hid : id = m
      · rw [hid, readers_insert_self, hm]
      · rw [readers_insert_ne hid, hiff]
    · rw [hdata₀ id, h₀] at hj; cases hj
  | none =>
    have hnone := hs.no_data hlist hmax
    have hnone₀ : ∀ id, fs₀.lookup (.data id) = none := fun id => (hdata₀ id).symm.trans (hnone id)
    rw [Option.getD_none]
    have hother : ∀ {n}, n ≠ .data 1 → (fs.create (.data 1)).lookup n = fs.lookup n :=
      fun hn => Fs.lookup_create_ne hn
    refine ⟨ho.create_first hnone₀ hnone, fun id j => ?_, Fs.lookup_create_self,
      fun hj => (first_data_file hnone hj).1.le, fun id => ?_, fun id hh => ?_, fun id hd => ?_,
      fun hj _ => (first_data_file hnone hj).2.2, fun hm => ?_, fun hm => (hsynced' hm).create _⟩
    · by_cases hid : id = 1
      · subst hid
        rw [readers_insert_self, Fs.lookup_create_self]
      · rw [readers_insert_ne hid, hiff, hother (by simpa using hid)]
    · rw [hother (by simp)]; exact hs.no_compact hlist id
    · rw [hother (by simp)] at hh
      exact absurd (hnone id) (hs.no_orphan hlist id hh)
    · exact absurd (hnone₀ id) hd
    · rw [Fs.read_create_ne (by simp)]
      exact hmarker' hm

end Elect

/-! ## The whole of `open` -/

section Open

variable {crc} {fs₀ fs₂ fs : Fs FileName} {listing : List FileName} {now : ℕ}

/-- The files in the order of their ids, of which the last one is the active one. -/
theorem Elected.toList {readers : Std.TreeMap ℕ Inode} {cur : ℕ} {file : Inode}
    (h : Elected fs₀ fs readers cur file) :
    ∃ front, readers.toList = front ++ [(cur, file)] ∧
      (∀ f ∈ front, f.1 ≠ cur ∧ readers[f.1]? = some f.2 ∧ fs.lookup (.data f.1) = some f.2) ∧
      front.Pairwise fun f g => f.1 ≠ g.1 := by
  obtain ⟨front, hsplit, hfront, hdistinct⟩ := toList_split ((h.readers cur file).mpr h.current)
    fun id i hi => h.le_current ((h.readers id i).mp hi)
  refine ⟨front, hsplit, fun f hf => ?_, hdistinct⟩
  obtain ⟨hne, hread⟩ := hfront f hf
  exact ⟨hne, hread, (h.readers f.1 f.2).mp hread⟩


theorem Opening.bounded (h : Opening fs₀ fs) (hb : Bounded fs₀) : Bounded fs := by
  intro id i hi
  rcases h.fresh hi with h₀ | ⟨-, -, hnil⟩
  · rw [(h.data h₀).2.1]; exact hb h₀
  · rw [hnil]; simp [maxFileLen]

/-- A sealed file of the directory is not one that `open` has created. -/
theorem Elected.sealed_old {readers : Std.TreeMap ℕ Inode} {cur id : ℕ} {file i : Inode}
    (h : Elected fs₀ fs readers cur file) (hi : fs.lookup (.data id) = some i) (hid : id ≠ cur) :
    fs₀.lookup (.data id) = some i := by
  rcases h.opening.fresh hi with h₀ | ⟨h1, hnone, -⟩
  · exact h₀
  · rcases h.opening.fresh h.current with hc | ⟨hc, -, -⟩
    · rw [hnone] at hc; cases hc
    · exact absurd (h1.trans hc.symm) hid

/-- A file below one that `open` has not created. -/
theorem Elected.below {readers : Std.TreeMap ℕ Inode} {cur id : ℕ} {file i : Inode}
    (h : Elected fs₀ fs readers cur file) (hi : fs.lookup (.data id) = some i) (hid : id ≠ cur) :
    ∃ id', id < id' ∧ fs₀.lookup (.data id') ≠ none := by
  refine ⟨cur, lt_of_le_of_ne (h.le_current hi) hid, ?_⟩
  rcases h.opening.fresh h.current with hc | ⟨-, hnone, -⟩
  · rw [hc]
    simp
  · have h₀ := h.sealed_old hi hid
    rw [hnone] at h₀
    cases h₀

theorem Elected.faithful {readers : Std.TreeMap ℕ Inode} {cur id : ℕ} {file i : Inode}
    (h : Elected fs₀ fs readers cur file) (hf : SealedFaithful crc fs₀)
    (hi : fs.lookup (.data id) = some i) (hid : id ≠ cur) : FaithfulAt crc fs id := by
  intro j i' hh hd
  obtain ⟨hh₀, hbh, -⟩ := h.opening.hint hh
  have hi₀ := h.sealed_old hd hid
  rw [hbh, (h.opening.data hi₀).2.1]
  exact hf (h.below hi hid) hh₀ hi₀

/-- An openable directory is replayed without an error. -/
theorem Elected.readable {readers : Std.TreeMap ℕ Inode} {cur : ℕ} {file : Inode}
    (h : Elected fs₀ fs readers cur file) (ho : Openable crc fs₀) :
    (∀ {id i}, fs.lookup (.data id) = some i → id ≠ cur → Sealed crc (fs.bytes i)) ∧
      Readable crc (fs.bytes file) := by
  constructor
  · intro id i hi hne
    have h₀ := h.sealed_old hi hne
    rw [(h.opening.data h₀).2.1]
    exact (ho.2 h₀).2 (h.below hi hne)
  · rcases h.opening.fresh h.current with hc | ⟨-, -, hnil⟩
    · rw [(h.opening.data hc).2.1]; exact (ho.2 hc).1
    · rw [hnil]; exact ⟨[], [], rfl, Or.inl rfl, by simp⟩

section Done

variable {readers : Std.TreeMap ℕ Inode} {cur id : ℕ} {file i : Inode} {front : List (ℕ × Inode)}
  {l : Loader} {n : FileName}

/-- Only the active file has its name. -/
theorem Elected.ne_file (he : Elected fs₀ fs₂ readers cur file) (hi : fs₂.lookup n = some i)
    (hn : n ≠ .data cur) : i ≠ file := by
  rintro rfl
  exact hn (fs₂.dir_inj _ _ _ hi he.current)

/-- The sealed files are the other data files. -/
theorem Elected.mem_front (he : Elected fs₀ fs₂ readers cur file)
    (hfront : readers.toList = front ++ [(cur, file)]) (hi : fs₂.lookup (.data id) = some i)
    (hid : id ≠ cur) : (id, i) ∈ front := by
  have hmem : (id, i) ∈ readers.toList :=
    Std.TreeMap.mem_toList_iff_getElem?_eq_some.mpr ((he.readers id i).mpr hi)
  rw [hfront] at hmem
  rcases List.mem_append.mp hmem with hmem | hmem
  · exact hmem
  · exact absurd (congrArg Prod.fst (List.mem_singleton.mp hmem)) hid

/-- The replay cuts a torn tail off, and no record. -/
theorem ReplayDone.recordsIn_eq
    (h : ReplayDone crc fs₀ fs₂ ⟨readers, Index.empty, ⟨cur, file, 0, 0, now, 0⟩⟩ front l fs)
    (i : Inode) : recordsIn crc fs i = recordsOf crc (fs₂.bytes i) := by
  by_cases hi : i = file
  · obtain ⟨t, -, -, hfits⟩ := h.readable.eq
    rw [hi, recordsIn, h.active]
    exact recordsOf_sealed hfits
  · rw [recordsIn, h.bytes i hi]

/-- After the replay every data file is its records. -/
theorem ReplayDone.data_bytes (he : Elected fs₀ fs₂ readers cur file)
    (hfront : readers.toList = front ++ [(cur, file)])
    (h : ReplayDone crc fs₀ fs₂ ⟨readers, Index.empty, ⟨cur, file, 0, 0, now, 0⟩⟩ front l fs)
    (hi : fs₂.lookup (.data id) = some i) :
    fs.bytes i = encodeAll crc (recordsOf crc (fs₂.bytes i)) ∧ Readable crc (fs₂.bytes i) := by
  by_cases hid : id = cur
  · subst hid
    obtain rfl := Option.some.inj (hi.symm.trans he.current)
    exact ⟨h.active, h.readable⟩
  · have hs := h.sealed _ (he.mem_front hfront hi hid)
    rw [h.bytes i (he.ne_file hi (by simpa using hid))]
    exact ⟨hs.eq.1, hs.readable⟩

theorem ReplayDone.length_le (he : Elected fs₀ fs₂ readers cur file)
    (hfront : readers.toList = front ++ [(cur, file)])
    (h : ReplayDone crc fs₀ fs₂ ⟨readers, Index.empty, ⟨cur, file, 0, 0, now, 0⟩⟩ front l fs)
    (hi : fs₂.lookup (.data id) = some i) : (fs.bytes i).length ≤ (fs₂.bytes i).length := by
  obtain ⟨hb, hr⟩ := h.data_bytes he hfront hi
  obtain ⟨t, ht, -, -⟩ := hr.eq
  rw [hb]
  conv_rhs => rw [ht]
  simp

/-- What is synced of a file stays synced, up to the cut. -/
theorem ReplayDone.synced_bounds
    (h : ReplayDone crc fs₀ fs₂ ⟨readers, Index.empty, ⟨cur, file, 0, 0, now, 0⟩⟩ front l fs)
    (i : Inode) : min (fs₂.synced i) (fs.bytes i).length ≤ fs.synced i ∧ fs.synced i ≤ fs₂.synced i := by
  by_cases hif : i = file
  · rw [hif]
    rcases h.active_synced with hs | hs
    · exact ⟨hs.ge, hs.le.trans (min_le_left _ _)⟩
    · exact ⟨(min_le_left _ _).trans hs.ge, hs.le⟩
  · rw [h.synced i hif]
    exact ⟨min_le_left _ _, le_rfl⟩

/-- A sealed file was replayed with the hint that `open` has found. -/
theorem ReplayDone.sealedSays_eq (he : Elected fs₀ fs₂ readers cur file)
    (h : ReplayDone crc fs₀ fs₂ ⟨readers, Index.empty, ⟨cur, file, 0, 0, now, 0⟩⟩ front l fs)
    {f : ℕ × Inode} (hf : fs₂.lookup (.data f.1) = some f.2) (hne : f.1 ≠ cur) :
    sealedSays crc fs₂ f = replayed (fs₀.lookup (.hint f.1)).isSome (recordsIn crc fs f.2) := by
  rw [sealedSays, h.recordsIn_eq, he.hint f.1 (by rw [he.sealed_old hf hne]; simp)]

/-- The marker is not the active file. -/
theorem ReplayDone.read_lock (he : Elected fs₀ fs₂ readers cur file)
    (h : ReplayDone crc fs₀ fs₂ ⟨readers, Index.empty, ⟨cur, file, 0, 0, now, 0⟩⟩ front l fs) :
    fs.read .lock = fs₂.read .lock :=
  Fs.read_congr (h.others _ (by simp)) fun i hi => h.bytes i (he.ne_file hi (by simp))

/-- The index says what the sealed files and the active file say, by the files as they are now. -/
theorem ReplayDone.says (he : Elected fs₀ fs₂ readers cur file)
    (hfiles : ∀ f ∈ front, f.1 ≠ cur ∧ readers[f.1]? = some f.2 ∧ fs₂.lookup (.data f.1) = some f.2)
    (h : ReplayDone crc fs₀ fs₂ ⟨readers, Index.empty, ⟨cur, file, 0, 0, now, 0⟩⟩ front l fs) :
    Represents crc (recordsIn crc fs) (readers[·]?)
      (front.flatMap (fun f => replayed (fs₀.lookup (.hint f.1)).isSome (recordsIn crc fs f.2)) ++
        events (recordsIn crc fs file)) l.index := by
  have hreplayed : front.flatMap (sealedSays crc fs₂) = front.flatMap fun f =>
      replayed (fs₀.lookup (.hint f.1)).isSome (recordsIn crc fs f.2) :=
    List.flatMap_congr fun f hf => h.sealedSays_eq he (hfiles f hf).2.2 (hfiles f hf).1
  have hfun : recordsIn crc fs = fun i => recordsOf crc (fs₂.bytes i) := funext h.recordsIn_eq
  have hrep := h.represents
  rw [hreplayed] at hrep
  rw [hfun] at hrep ⊢
  exact hrep

/-- A data file that was there is there, without its torn tail. -/
theorem ReplayDone.old (he : Elected fs₀ fs₂ readers cur file)
    (hfront : readers.toList = front ++ [(cur, file)])
    (h : ReplayDone crc fs₀ fs₂ ⟨readers, Index.empty, ⟨cur, file, 0, 0, now, 0⟩⟩ front l fs)
    (hi : fs₀.lookup (.data id) = some i) : fs.lookup (.data id) = some i ∧
      Readable crc (fs₀.bytes i) ∧ fs.bytes i = encodeAll crc (recordsOf crc (fs₀.bytes i)) ∧
      min (fs₀.synced i) (fs.bytes i).length ≤ fs.synced i ∧ fs.synced i ≤ fs₀.synced i := by
  obtain ⟨hd, hbd, hsd⟩ := he.opening.data hi
  obtain ⟨hb', hr⟩ := h.data_bytes he hfront hd
  rw [hbd] at hb' hr
  refine ⟨by rw [h.others _ (by simp)]; exact hd, hr, hb', ?_⟩
  rw [← hsd]
  exact h.synced_bounds i

/-- A data file that was not there is the empty first one, and nothing of it is synced. -/
theorem ReplayDone.fresh (he : Elected fs₀ fs₂ readers cur file)
    (hfront : readers.toList = front ++ [(cur, file)])
    (h : ReplayDone crc fs₀ fs₂ ⟨readers, Index.empty, ⟨cur, file, 0, 0, now, 0⟩⟩ front l fs)
    (hi : fs₂.lookup (.data id) = some i) (hnew : fs₀.lookup (.data id) = none) :
    (id = 1 ∧ (∀ id, fs₀.lookup (.data id) = none) ∧ fs.bytes i = []) ∧ fs.synced i = 0 := by
  constructor
  · rcases he.opening.fresh hi with hk | ⟨h1, h2, h3⟩
    · rw [hnew] at hk
      cases hk
    · have hle := h.length_le he hfront hi
      rw [h3] at hle
      exact ⟨h1, h2, List.length_eq_zero_iff.mp (Nat.le_zero.mp hle)⟩
  · have hle := (h.synced_bounds i).2
    rw [he.fresh_synced hi hnew] at hle
    exact Nat.le_zero.mp hle

theorem ReplayDone.marker_synced (he : Elected fs₀ fs₂ readers cur file)
    (h : ReplayDone crc fs₀ fs₂ ⟨readers, Index.empty, ⟨cur, file, 0, 0, now, 0⟩⟩ front l fs)
    (hm : MarkerSynced fs₀) : MarkerSynced fs := by
  intro i hi
  rw [h.others _ (by simp)] at hi
  have hne := he.ne_file hi (by simp)
  rw [h.bytes i hne, h.synced i hne]
  exact he.marker_synced hm i hi

/-- The store that the replay leaves. -/
theorem ReplayDone.opened (he : Elected fs₀ fs₂ readers cur file)
    (hfront : readers.toList = front ++ [(cur, file)])
    (hfiles : ∀ f ∈ front, f.1 ≠ cur ∧ readers[f.1]? = some f.2 ∧ fs₂.lookup (.data f.1) = some f.2)
    (hb : Bounded fs₂)
    (h : ReplayDone crc fs₀ fs₂ ⟨readers, Index.empty, ⟨cur, file, 0, 0, now, 0⟩⟩ front l fs) :
    Opened crc fs₀ (l.store fs) := by
  have hdata : ∀ id, fs.lookup (.data id) = fs₂.lookup (.data id) := fun id => h.others _ (by simp)
  have hcur : l.writer.currentFileId = cur := h.loader.cur
  have hfile : l.writer.file = file := h.loader.file
  rw [Loader.store, h.loader.readers]
  exact {
    free := rfl
    idle := rfl
    readers := fun id i => by
      rw [hdata]
      exact he.readers id i
    current := by
      rw [hdata, hcur, hfile]
      exact he.current
    le_current := fun {id i} hi => by
      rw [hdata] at hi
      rw [hcur]
      exact he.le_current hi
    sealed := fun {id i} hi => by
      rw [hdata] at hi
      obtain ⟨hb', hr⟩ := h.data_bytes he hfront hi
      exact ⟨_, hb', hr.eq.choose_spec.2.2⟩
    bounded := fun {id i} hi => by
      rw [hdata] at hi
      exact (h.length_le he hfront hi).trans_lt (hb hi)
    offset := by
      rw [hfile]
      exact h.offset
    placed := h.loader.placed Index.placed_empty
    represents := ⟨front, by rw [hcur, hfile]; exact hfront, by rw [hfile]; exact h.says he hfiles⟩
    compact := fun id => by
      rw [h.others _ (by simp)]
      exact he.compact id
    orphan := fun id hh => by
      obtain ⟨j, hj⟩ := Option.ne_none_iff_exists'.mp hh
      exact he.orphan id (by rw [h.keeps hj]; simp)
    hint := fun {id j} hh => by
      have hj := h.keeps hh
      have hne := he.ne_file hj (by simp)
      obtain ⟨h1, h2, h3⟩ := he.opening.hint hj
      exact ⟨h1, (h.bytes j hne).trans h2, (h.synced j hne).trans h3⟩
    kept := fun {id i} hi hid => by
      rw [hdata] at hi
      rw [hcur] at hid
      rw [h.recordsIn_eq, h.kept _ (he.mem_front hfront hi hid), ← h.recordsIn_eq]
      exact h.sealedSays_eq he hi hid
    old := fun hi => h.old he hfront hi
    old_sealed := fun {id i} hi hid => by
      rw [hcur] at hid
      obtain ⟨hd, hbd, -⟩ := he.opening.data hi
      rw [← hbd]
      exact h.sealed _ (he.mem_front hfront hd hid)
    fresh := fun {id i} hi => by
      rw [hdata] at hi
      cases h₀ : fs₀.lookup (.data id) with
      | none => exact Or.inr (h.fresh he hfront hi h₀).1
      | some i₀ => exact Or.inl ((he.opening.data h₀).1.symm.trans hi)
    fresh_synced := fun {id i} hi h₀ => by
      rw [hdata] at hi
      exact (h.fresh he hfront hi h₀).2
    marker := fun hm => (h.read_lock he).trans (he.marker hm)
    marker_synced := h.marker_synced he }

end Done

/-- `open` up to the replay: it is enough to know what the replay does once the active file is
elected. -/
theorem openStore_rule {R : Sys → Fs FileName → Prop} {E : Fault → Fs FileName → Prop}
    {C : Fs FileName → Prop} (hlist : (fs₀.create .lock).Lists listing)
    (hC : ∀ fs, Opening fs₀ fs → C fs)
    (hrefused : ∀ e fs, e ≠ .panic → Opening fs₀ fs → ¬ MarkerOk (fs₀.read .lock) → E e fs)
    (hreplay : ∀ {fs₂ readers cur file}, Elected fs₀ fs₂ readers cur file →
      Triple (· = fs₂)
        (storeNames.replay crc readers.toList ⟨readers, Index.empty, ⟨cur, file, 0, 0, now, 0⟩⟩)
        (fun l fs => R (l.store fs) fs) E C) :
    Triple (· = fs₀) (openStore crc listing now) R E C := by
  rw [openStore_eq]
  refine Triple.bind ((acquire_spec fs₀).conseq (fun _ h => h) (fun _ _ h => h)
    (fun _ _ h => hrefused _ _ h.1 h.2.1 h.2.2) hC) fun _ => Triple.of_eq ?_
  rintro fs₁ ⟨ho₁, hmarker, hnames, hlock, hsynced⟩
  have hlist₁ : ∀ n, n ∈ listing ↔ (fs₁.lookup n).isSome := by
    intro n
    rw [hlist.2]
    by_cases hn : n = .lock
    · rw [hn, Fs.lookup_create_self]
      exact ⟨fun _ => Option.ne_none_iff_isSome.mp hlock, fun _ => rfl⟩
    · rw [Fs.lookup_create_ne hn, hnames n hn]
  refine Triple.bind (Q := fun l fs => R (l.store fs) fs) ?_ fun l => Triple.get_bind fun s hs =>
    Triple.pure ?_
  · refine Triple.bind ((scan_spec fs₀ fs₁ listing _).conseq
      (by rintro s rfl; exact ⟨ho₁, rfl⟩) (fun _ _ h => h) (fun _ _ h => h) hC)
      fun scan => Triple.of_eq ?_
    rintro fs ⟨ho, hs⟩
    refine Triple.bind (DirM.openCreate_spec _ (hC _ ho)) fun i => Triple.of_eq ?_
    rintro _ ⟨rfl, rfl⟩
    exact hreplay (hs.elected ho hlist₁ hnames hmarker hsynced)
  · rintro _ rfl
    exact hs

/-- `open` on a directory whose hints, but for that of the last file, are faithful. -/
theorem openStore_spec (hlist : (fs₀.create .lock).Lists listing) (hf : SealedFaithful crc fs₀)
    (hb : Bounded fs₀) :
    Triple (· = fs₀) (openStore crc listing now) (fun s fs => s.fs = fs ∧ Opened crc fs₀ s)
      (fun _ _ => ¬ Openable crc fs₀) (Opening fs₀) := by
  refine openStore_rule hlist (fun _ h => h) (fun _ _ _ _ h ho => h ho.1) ?_
  intro fs₂ readers cur file helect
  obtain ⟨front, hfront, hfiles, hnodup⟩ := helect.toList
  have hb₂ : Bounded fs₂ := helect.opening.bounded hb
  rw [hfront]
  refine (replay_spec ⟨readers, Index.empty, ⟨cur, file, 0, 0, now, 0⟩⟩ [] _
    ((helect.readers cur file).mpr helect.current)
    (fun f hmem => helect.faithful hf (hfiles f hmem).2.2 (hfiles f hmem).1)
    (fun f hf => ⟨(hfiles f hf).1, (hfiles f hf).2.1, (hfiles f hf).2.2, ?_⟩)
    (by simpa using hnodup)).conseq ?_ ?_ ?_ (fun _ h => h)
  · exact (hb₂ (hfiles f hf).2.2).trans (by simp [maxFileLen])
  · rintro s rfl
    exact ⟨helect.opening, id, fun _ _ => rfl, fun _ _ => rfl, rfl, rfl,
      ⟨rfl, rfl, rfl, id⟩, by simp, by simp, represents_empty⟩
  · intro l fs hdone
    exact ⟨rfl, hdone.opened helect hfront hfiles hb₂⟩
  · rintro _ _ hns hopen
    obtain ⟨h1, h2⟩ := helect.readable hopen
    exact hns ⟨fun f hf => h1 (hfiles f hf).2.2 (hfiles f hf).1, h2⟩

/-- `open` succeeds on an openable directory. -/
theorem Openable.opens (h : Openable crc fs₀) (hf : SealedFaithful crc fs₀) (hb : Bounded fs₀)
    (hlist : (fs₀.create .lock).Lists listing) :
    ∃ s, (openStore crc listing now fs₀).result = .ok s ∧ Opened crc fs₀ s := by
  obtain ⟨s, hs, -, ho⟩ := ((openStore_spec hlist hf hb).conseq
    (fun _ h => h) (fun _ _ h => h) (fun _ _ hn => hn h) (fun _ h => h)).returns rfl
  exact ⟨s, hs, ho⟩

/-- An opened store has the representation invariant. -/
theorem Opened.rep {s : Sys} (h : Opened crc fs₀ s) (cfg : Config) :
    ∃ recs, (∀ {id i}, s.fs.lookup (.data id) = some i → recs i = recordsIn crc s.fs i) ∧
      Rep crc cfg recs s := by
  classical
  set recs : Inode → List Command := fun i =>
    if ∃ id, s.fs.lookup (.data id) = some i then recordsIn crc s.fs i else [] with hrecs
  have hrec : ∀ {id i}, s.fs.lookup (.data id) = some i → recs i = recordsIn crc s.fs i :=
    fun hi => if_pos ⟨_, hi⟩
  have hhandles : s.handles = (s.readers[·]?) := by
    funext id
    rw [Sys.handles, h.free, h.idle]
    rfl
  have hrd : ∀ {id i}, s.handles id = some i → s.fs.lookup (.data id) = some i := by
    intro id i hi
    rw [hhandles] at hi
    exact (h.readers id i).mp hi
  have hbytes : ∀ {id i}, s.fs.lookup (.data id) = some i →
      s.fs.bytes i = encodeAll crc (recs i) := fun hi => by
    rw [hrec hi]
    exact (h.sealed hi).eq.1
  refine ⟨recs, hrec, ?_, ?_, ?_, ?_, ?_⟩
  · exact {
      dir_rd := fun hi => by rw [hhandles]; exact (h.readers _ _).mpr hi
      cur_dir := h.current
      rd_le := fun hi => h.le_current (hrd hi)
      rd_lt := fun hi => s.fs.dir_lt _ _ (hrd hi)
      rd_name := fun hi hn => s.fs.dir_inj _ _ _ hn (hrd hi)
      rd_inj := fun hi hi' => FileName.data.inj (s.fs.dir_inj _ _ _ (hrd hi) (hrd hi'))
      rd_bytes := fun hi => ⟨[], by rw [hbytes (hrd hi), List.append_nil], fun _ => rfl⟩
      rd_len := fun hi => h.bounded (hrd hi)
      fits := by
        intro i c hc
        simp only [hrecs] at hc
        split at hc
        · rename_i hex
          obtain ⟨id, hi⟩ := hex
          exact (h.sealed hi).eq.2 c hc
        · cases hc
      placed := h.placed
      entry := by
        intro k e he
        obtain ⟨front, -, hrep⟩ := h.represents
        obtain ⟨i, v, -, hi, hat, hlen⟩ := hrep.entry he
        refine ⟨i, v, by rw [hhandles]; exact hi, ?_, hlen⟩
        rw [hrec ((h.readers _ _).mp hi)]
        exact hat }
  · rw [h.free]
    exact ⟨[], by rw [hbytes h.current, List.append_nil], Or.inl rfl,
      by rw [h.offset, hbytes h.current]⟩
  · rw [h.idle]
    trivial
  · rintro id (hid | hid)
    · exact absurd (h.compact id) hid
    · obtain ⟨i, hi⟩ := Option.ne_none_iff_exists'.mp (h.orphan id hid)
      exact h.le_current (h.old hi).1
  · rw [h.free]
    exact fun hne => absurd rfl hne

end Open

end Bitcask
