import Bitcask.Storage.OpenNames
import Bitcask.Storage.Replay

/-!
# What opening a directory does

`open` is followed through its four parts. Whatever the directory `fs₀` held, a crash inside
`open` leaves a directory that differs from it only by the stamp of the lock file, by files of
unfinished merges and hints that are gone, and by an empty first data file (`Opening`).

`open` fails only if the lock file carries another marker, a sealed data file without a hint is no
sequence of records, or the active file is no sequence of records with at most a torn tail. If it
returns, the store it returns is described by `Opened`.
-/

namespace Bitcask

open LittleEndian FileSystem CrashHoare SegmentedLog

/-- The lock file is missing, empty or stamped with the name of the engine. -/
def MarkerOk (marker : Option Bytes) : Prop :=
  marker = none ∨ marker = some [] ∨ marker = some (asBytes engine)

/-- What `acquire` may leave of a marker that lets it go on: a stamped one stays, and in the place of
none there may be any part of one. -/
def MarkerPart (marker₀ marker : Option Bytes) : Prop :=
  marker = marker₀ ∨ marker₀ ≠ some (asBytes engine) ∧ ∃ n, marker = some ((asBytes engine).take n)

/-- A crash inside `write_all` has left some bytes of the marker, and not all. -/
def TornMarker (fs : Fs FileName) : Prop :=
  ∃ n, 0 < n ∧ n < (asBytes engine).length ∧ fs.read .lock = some ((asBytes engine).take n)

theorem MarkerPart.ok {marker : Option Bytes} {fs : Fs FileName}
    (h : MarkerPart marker (fs.read .lock)) (hm : MarkerOk marker) (ht : ¬ TornMarker fs) :
    MarkerOk (fs.read .lock) := by
  rcases h with h | ⟨-, n, h⟩
  · rwa [h]
  rcases Nat.eq_zero_or_pos n with rfl | hpos
  · exact Or.inr (Or.inl h)
  · have hn : (asBytes engine).length ≤ n := Nat.le_of_not_lt fun hn => ht ⟨n, hpos, hn, h⟩
    rw [List.take_of_length_le hn] at h
    exact Or.inr (Or.inr h)

/-- An empty marker is not torn, and neither is one that is long enough. -/
theorem not_torn {fs : Fs FileName} {b : Bytes} (h : fs.read .lock = some b)
    (hb : b = [] ∨ (asBytes engine).length ≤ b.length) : ¬ TornMarker fs := by
  rintro ⟨n, hpos, hn, hread⟩
  have hlen := congrArg List.length (Option.some.inj (h.symm.trans hread))
  rw [List.length_take] at hlen
  rcases hb with rfl | hb
  · rw [List.length_nil] at hlen
    omega
  · omega

/-- What the directory may look like while it is opened. -/
structure Opening (fs₀ fs : Fs FileName) : Prop where
  data : ∀ {id i}, fs₀.lookup (.data id) = some i →
    fs.lookup (.data id) = some i ∧ fs.bytes i = fs₀.bytes i ∧ fs.synced i = fs₀.synced i
  fresh : ∀ {id i}, fs.lookup (.data id) = some i → fs₀.lookup (.data id) = some i ∨
    id = 1 ∧ (∀ id, fs₀.lookup (.data id) = none) ∧ fs.bytes i = []
  hint : ∀ {id h}, fs.lookup (.hint id) = some h →
    fs₀.lookup (.hint id) = some h ∧ fs.bytes h = fs₀.bytes h ∧ fs.synced h = fs₀.synced h
  marker : MarkerOk (fs₀.read .lock) → MarkerPart (fs₀.read .lock) (fs.read .lock)

theorem Opening.refl (fs : Fs FileName) : Opening fs fs :=
  ⟨fun h => ⟨h, rfl, rfl⟩, Or.inl, fun h => ⟨h, rfl, rfl⟩, fun _ => Or.inl rfl⟩

section Opening

variable {fs₀ fs fs' : Fs FileName}

/-- The lock file is created or stamped. -/
theorem Opening.lockOnly (h : Opening fs₀ fs) (hl : ∀ n, n ≠ .lock → fs'.lookup n = fs.lookup n)
    (hb : ∀ {n i}, n ≠ .lock → fs.lookup n = some i →
      fs'.bytes i = fs.bytes i ∧ fs'.synced i = fs.synced i)
    (hm : MarkerOk (fs₀.read .lock) → MarkerPart (fs₀.read .lock) (fs'.read .lock)) :
    Opening fs₀ fs' where
  data {id i} hi := by
    obtain ⟨h1, h2, h3⟩ := h.data hi
    obtain ⟨hb1, hb2⟩ := hb (by simp) h1
    exact ⟨by rw [hl _ (by simp)]; exact h1, hb1.trans h2, hb2.trans h3⟩
  fresh {id i} hi := by
    rw [hl _ (by simp)] at hi
    exact (h.fresh hi).imp_right fun ⟨h1, h2, h3⟩ => ⟨h1, h2, (hb (by simp) hi).1.trans h3⟩
  hint {id i} hi := by
    rw [hl _ (by simp)] at hi
    obtain ⟨h1, h2, h3⟩ := h.hint hi
    obtain ⟨hb1, hb2⟩ := hb (by simp) hi
    exact ⟨h1, hb1.trans h2, hb2.trans h3⟩
  marker := hm

/-- Names that are no data names go. -/
theorem Opening.unlink (h : Opening fs₀ fs) {n : FileName} (hn : ∀ id, n ≠ .data id)
    (hlock : n ≠ .lock) : Opening fs₀ (fs.unlink n) where
  data {id i} hi := by
    obtain ⟨h1, h2, h3⟩ := h.data hi
    exact ⟨by rw [Fs.lookup_unlink_ne fs (hn id).symm]; exact h1, h2, h3⟩
  fresh {id i} hi := by
    rw [Fs.lookup_unlink_ne fs (hn id).symm] at hi
    exact h.fresh hi
  hint {id i} hi := by
    by_cases hid : n = .hint id
    · rw [hid, Fs.lookup_unlink_self] at hi; cases hi
    · rw [Fs.lookup_unlink_ne fs (Ne.symm hid)] at hi
      exact h.hint hi
  marker hm := by
    have := h.marker hm
    unfold Fs.read at this ⊢
    rw [Fs.lookup_unlink_ne fs hlock.symm]
    exact this

end Opening

/-! ## The lock file -/

/-- The whole lock file is synced. -/
def MarkerSynced (fs : Fs FileName) : Prop :=
  ∀ i, fs.lookup .lock = some i → (fs.bytes i).length ≤ fs.synced i

theorem MarkerSynced.create {fs : Fs FileName} (h : MarkerSynced fs) (n : FileName) :
    MarkerSynced (fs.create n) := by
  intro i hi
  cases hn : fs.lookup n with
  | some j =>
    rw [Fs.create_of_some hn] at hi ⊢
    exact h i hi
  | none =>
    by_cases hl : FileName.lock = n
    · rw [hl, Fs.lookup_create_self_of_none hn, Option.some.injEq] at hi
      rw [← hi, Fs.bytes_create_next hn]
      exact Nat.zero_le _
    · rw [Fs.lookup_create_ne hl] at hi
      have hlt := fs.dir_lt _ _ hi
      rw [Fs.bytes_create_of_lt hlt, Fs.synced_create_of_lt hlt]
      exact h i hi

section LockFile

variable {fs₀ : Fs FileName} {n : FileName} {i : Inode}

theorem lockFile_ne (hn : n ≠ .lock) (hi : (fs₀.create .lock).lookup n = some i) :
    i ≠ fs₀.handle .lock := by
  rintro rfl
  exact hn ((fs₀.create .lock).dir_inj _ _ _ hi Fs.lookup_create_self)

/-- A marker that lets `open` go on is empty or the engine's. -/
theorem lockFile_bytes (hm : MarkerOk (fs₀.read .lock)) :
    (fs₀.create .lock).bytes (fs₀.handle .lock) = [] ∨
      (fs₀.create .lock).bytes (fs₀.handle .lock) = asBytes engine := by
  unfold Fs.read at hm
  cases hi : fs₀.lookup .lock with
  | none =>
    rw [Fs.handle_of_none hi]
    exact Or.inl (Fs.bytes_create_next hi)
  | some i =>
    rw [hi] at hm
    rw [Fs.handle_of_some hi, Fs.create_of_some hi]
    rcases hm with hm | hm | hm
    · cases hm
    · exact Or.inl (Option.some.inj hm)
    · exact Or.inr (Option.some.inj hm)

theorem read_lockFile :
    (fs₀.create .lock).read .lock = some ((fs₀.create .lock).bytes (fs₀.handle .lock)) := by
  rw [Fs.read, Fs.lookup_create_self, Option.map_some]

theorem Opening.create_lock (fs₀ : Fs FileName) : Opening fs₀ (fs₀.create .lock) := by
  refine (Opening.refl fs₀).lockOnly (fun n hn => Fs.lookup_create_ne hn) (fun {n i} hn hi => ?_) ?_
  · exact ⟨Fs.bytes_create_of_lt (fs₀.dir_lt _ _ hi), Fs.synced_create_of_lt (fs₀.dir_lt _ _ hi)⟩
  · intro _
    cases hl : fs₀.lookup .lock with
    | some i =>
      rw [Fs.create_of_some hl]
      exact Or.inl rfl
    | none =>
      refine Or.inr ⟨by rw [Fs.read, hl]; simp, 0, ?_⟩
      rw [read_lockFile, Fs.handle_of_none hl, Fs.bytes_create_next hl, List.take_zero]

/-- Where `open` may go on, a blank marker is an empty one. -/
theorem lockFile_blank (hm : MarkerOk (fs₀.read .lock))
    (hb : checkMarker .bitcask ((fs₀.create .lock).bytes (fs₀.handle .lock)) = .blank) :
    (fs₀.create .lock).bytes (fs₀.handle .lock) = [] := by
  refine (lockFile_bytes hm).resolve_right fun he => ?_
  rw [he] at hb
  revert hb
  decide

/-- Where `open` may go on, a marker that is not blank is the engine's. -/
theorem lockFile_stamped (hm : MarkerOk (fs₀.read .lock))
    (hb : checkMarker .bitcask ((fs₀.create .lock).bytes (fs₀.handle .lock)) ≠ .blank) :
    (fs₀.create .lock).bytes (fs₀.handle .lock) = asBytes engine := by
  refine (lockFile_bytes hm).resolve_left fun he => hb ?_
  rw [he]
  decide

/-- A part of the marker is written, in a lock file that has none. -/
theorem stamp_opening {b : Bytes}
    (hb : checkMarker .bitcask ((fs₀.create .lock).bytes (fs₀.handle .lock)) = .blank)
    (hpart : ∃ n, b = (asBytes engine).take n) :
    Opening fs₀ ((fs₀.create .lock).append (fs₀.handle .lock) b) ∧
      (MarkerOk (fs₀.read .lock) →
        ((fs₀.create .lock).append (fs₀.handle .lock) b).read .lock = some b) := by
  have hlk : ((fs₀.create .lock).append (fs₀.handle .lock) b).lookup .lock = some (fs₀.handle .lock) :=
    Fs.lookup_create_self
  have hread : MarkerOk (fs₀.read .lock) →
      ((fs₀.create .lock).append (fs₀.handle .lock) b).read .lock = some b := by
    intro hm
    rw [Fs.read, hlk, Option.map_some, Fs.bytes_append_self, lockFile_blank hm hb, List.nil_append]
  refine ⟨(Opening.create_lock fs₀).lockOnly (fun _ _ => rfl) (fun {n i} hn hi => ?_) fun hm => ?_,
    hread⟩
  · exact ⟨Fs.bytes_append_ne (lockFile_ne hn hi) _, rfl⟩
  · rw [hread hm]
    refine Or.inr ⟨fun hstamped => ?_, hpart.imp fun n h => congrArg some h⟩
    -- a stamped marker is not blank
    have hnil := lockFile_blank hm hb
    cases hl : fs₀.lookup .lock with
    | none =>
      rw [Fs.read, hl] at hstamped
      cases hstamped
    | some i =>
      rw [Fs.create_of_some hl, Fs.handle_of_some hl] at hnil
      rw [Fs.read, hl, Option.map_some, hnil] at hstamped
      revert hstamped
      decide

/-- The lock file is taken if its marker allows it, and then it carries the engine's name. -/
theorem acquire_spec (fs₀ : Fs FileName) :
    Triple (· = fs₀) (storeNames.acquire .bitcask)
      (fun _ fs => Opening fs₀ fs ∧ (MarkerOk (fs₀.read .lock) → fs.read .lock = some (asBytes engine)) ∧
        (∀ n, n ≠ .lock → fs.lookup n = fs₀.lookup n) ∧ fs.lookup .lock ≠ none ∧
        (MarkerSynced fs₀ → MarkerSynced fs))
      (fun e fs => e ≠ .panic ∧ Opening fs₀ fs ∧ ¬ MarkerOk (fs₀.read .lock)) (Opening fs₀) := by
  have hopen := Opening.create_lock fs₀
  refine storeNames.acquire_rule (Opening.refl fs₀) (fun hb => ⟨fun n => ?_, ?_⟩) (fun hmine => ?_)
    fun err hrefused => ?_
  · exact (stamp_opening hb ⟨n, rfl⟩).1
  · obtain ⟨ho, hread⟩ := stamp_opening hb ⟨_, (List.take_length).symm⟩
    refine ⟨ho.lockOnly (fun _ _ => rfl) (fun {n i} hn hi => ⟨rfl, ?_⟩) ho.marker, hread,
      fun n hn => Fs.lookup_create_ne hn, ?_, fun _ i hi => ?_⟩
    · exact Fs.synced_sync_ne (lockFile_ne hn hi)
    · exact Option.ne_none_iff_exists'.mpr ⟨_, Fs.lookup_create_self⟩
    · obtain rfl := Option.some.inj (Fs.lookup_create_self.symm.trans hi)
      rw [Fs.synced_sync_self]
      exact le_rfl
  · -- the marker is the engine's, perhaps with blanks around it
    refine ⟨hopen, fun hm => ?_, fun n hn => Fs.lookup_create_ne hn,
      by rw [Fs.lookup_create_self]; simp, fun hm => hm.create _⟩
    rw [read_lockFile, lockFile_stamped hm (by rw [hmine]; simp)]
  · refine ⟨by simp, hopen, fun hm => ?_⟩
    have hverdict := hrefused
    rw [lockFile_stamped hm (by rw [hrefused]; simp)] at hverdict
    revert hverdict
    simp [show checkMarker .bitcask (asBytes engine) = .mine by decide]

end LockFile

/-! ## The walk over the directory -/

/-- What the walk has done after the entries `pre` of the directory `fs₁`. -/
structure Scanned (fs₁ : Fs FileName) (pre : List FileName) (scan : Scan) (fs : Fs FileName) :
    Prop where
  keeps : ∀ {n i}, fs.lookup n = some i → fs₁.lookup n = some i
  data : ∀ id, fs.lookup (.data id) = fs₁.lookup (.data id)
  hint : ∀ id, fs₁.lookup (.data id) ≠ none → fs.lookup (.hint id) = fs₁.lookup (.hint id)
  lock : fs.lookup .lock = fs₁.lookup .lock
  bytes : fs.bytes = fs₁.bytes
  synced : fs.synced = fs₁.synced
  compact : ∀ id, .compact id ∈ pre → fs.lookup (.compact id) = none
  orphan : ∀ id, .hint id ∈ pre → fs₁.lookup (.data id) = none → fs.lookup (.hint id) = none
  readers : ∀ id i, scan.readHandlers[id]? = some i ↔
    .data id ∈ pre ∧ fs₁.lookup (.data id) = some i
  max_le : ∀ id i, scan.readHandlers[id]? = some i → ∃ m, scan.maxId = some m ∧ id ≤ m
  max_mem : ∀ m, scan.maxId = some m → scan.readHandlers[m]? ≠ none

section Walk

variable {fs₀ fs₁ fs : Fs FileName} {pre : List FileName} {scan : Scan}

theorem entry_eq_data {n : FileName} {id : ℕ} : n.entry = .data id ↔ n = .data id := by
  cases n <;> simp [FileName.entry]

/-- The names of the store have one data file for each id. -/
theorem storeNames_unambiguous (fs : Fs FileName) : storeNames.Unambiguous fs :=
  fun _ _ _ _ _ hn hm => (entry_eq_data.mp hn).trans (entry_eq_data.mp hm).symm

/-- The walk over the names of the store, from the walk over any names. -/
theorem Naming.Walked.scanned (h : Walked storeNames fs₁ pre scan fs) : Scanned fs₁ pre scan fs where
  keeps {n i} hi := by
    by_cases hn : n ∈ pre ∧ storeNames.Removed fs₁ n
    · rw [h.gone n hn.1 hn.2] at hi; cases hi
    · rwa [← h.kept n hn]
  data id := h.lookup_data rfl
  hint id hd := by
    refine h.kept _ fun hn => ?_
    rcases hn.2 with hr | ⟨id', hr, hnone⟩
    · cases hr
    · cases hr
      exact hd hnone
  lock := by
    refine h.kept _ fun hn => ?_
    rcases hn.2 with hr | ⟨id, hr, -⟩ <;> cases hr
  bytes := h.bytes
  synced := h.synced
  compact id hid := h.gone _ hid (Or.inl rfl)
  orphan id hid hd := h.gone _ hid (Or.inr ⟨id, rfl, hd⟩)
  readers id i := by
    rw [h.readers]
    constructor
    · rintro ⟨n, hn, hc, hi⟩
      obtain rfl := entry_eq_data.mp hc
      exact ⟨hn, hi⟩
    · rintro ⟨hn, hi⟩
      exact ⟨_, hn, rfl, hi⟩
  max_le := h.max_le
  max_mem := h.max_mem

/-- One entry removes at most a name that is no data name. -/
theorem scanEntry_opening (n : FileName) (scan : Scan) (E : Fault → Fs FileName → Prop) :
    Triple (Opening fs₀) (storeNames.scanEntry scan n) (fun _ => Opening fs₀) E (Opening fs₀) := by
  have hunlink : ∀ s, Opening fs₀ s → (∀ id, n ≠ .data id) → n ≠ .lock →
      Triple (· = s) (Prog.call (·.unlink n) >>= fun _ => Pure.pure scan) (fun _ => Opening fs₀) E
        (Opening fs₀) := by
    intro s ho hn hlock
    refine Triple.bind (Q := fun _ => Opening fs₀) (Triple.call ?_ ?_) fun _ => Triple.pure ?_
    · rintro _ rfl; exact ho
    · rintro _ rfl; exact ho.unlink hn hlock
    · exact fun _ h => h
  refine Triple.get_bind fun s ho => ?_
  have hstay : ∀ scan' : Scan,
      Triple (· = s) (Pure.pure scan') (fun _ => Opening fs₀) E (Opening fs₀) := by
    intro scan'
    refine Triple.pure ?_
    rintro _ rfl
    exact ho
  cases s.lookup n with
  | none => exact hstay scan
  | some i =>
    cases n with
    | lock => exact hstay scan
    | data id => exact hstay _
    | compact id => exact hunlink s ho (by simp) (by simp)
    | hint id =>
      simp only [FileName.entry]
      split
      · exact hunlink s ho (by simp) (by simp)
      · exact hstay scan

/-- The walk over the whole directory. -/
theorem scan_spec (fs₀ fs₁ : Fs FileName) (listing : List FileName) (E : Fault → Fs FileName → Prop) :
    Triple (fun fs => Opening fs₀ fs ∧ fs = fs₁) (listing.foldlM storeNames.scanEntry ⟨∅, none⟩)
      (fun scan fs => Opening fs₀ fs ∧ Scanned fs₁ listing scan fs) E (Opening fs₀) := by
  have hopening : Triple (Opening fs₀) (listing.foldlM storeNames.scanEntry ⟨∅, none⟩) (fun _ => Opening fs₀)
      (fun _ _ => True) (Opening fs₀) :=
    Triple.foldlM (fun _ _ => Opening fs₀) (fun _ n _ scan _ => scanEntry_opening n scan _) _
  have hwalk := Naming.walk (storeNames_unambiguous fs₁) listing
  exact (hopening.and hwalk).conseq (fun _ h => h) (fun _ _ h => ⟨h.1, h.2.scanned⟩)
    (fun _ _ h => h.2.elim) fun _ h => h.1

end Walk

end Bitcask
