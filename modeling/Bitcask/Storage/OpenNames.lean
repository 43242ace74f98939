import Bitcask.Storage.Open

/-!
# Opening a directory by the names in it

`textNames` are the names of the file system, where other programs may leave files with names of
their own.

`Walked` is what the walk does, name by name and id by id, if no two files have the same id. Nothing
of it depends on the order in which the names are read (`Walked.unique`).
-/

namespace Bitcask

open LittleEndian FileSystem CrashHoare

/-- The names of the file system. -/
def textNames : Naming Bytes where
  lock := lockFileName
  data := dataFileName
  hint := hintFileName
  classify := classify
  data_of_hint := fun h => classify_eq_data.mpr (getFileId_dataFileName (classify_hint_lt h))
  hint_ne_data := fun i j h => by cases @FileName.text_injective (.hint i) (.data j) h

/-! ## The lock file -/

namespace DirM

variable {N : Type} [DecidableEq N] {fs : Fs N}

theorem openCreate_spec {E : Fault → Fs N → Prop} {C : Fs N → Prop} (name : N)
    (hC : C fs) :
    Triple (· = fs) (openCreate name) (fun i s => i = fs.handle name ∧ s = fs.create name) E C := by
  refine Triple.get_bind ?_
  rintro s rfl
  refine Triple.bind (Q := fun _ s' => s' = s.create name) (Triple.call ?_ ?_) fun _ => Triple.pure ?_
  · rintro s rfl; exact hC
  · rintro s rfl; rfl
  · exact fun s hs => ⟨rfl, hs⟩

/-- `write_all` appends its bytes, one call after the other. -/
theorem writeAll_spec (fs : Fs N) (file : Inode) (bytes : Bytes) :
    Triple (· = fs) (writeAll file bytes) (fun _ s => s = fs.append file bytes) (fun _ _ => False)
      (fun s => ∃ n < bytes.length, s = fs.append file (bytes.take n)) := by
  induction bytes generalizing fs with
  | nil => exact Triple.pure fun s hs => hs.trans (Fs.append_nil ..).symm
  | cons b bytes ih =>
    refine Triple.bind (Q := fun _ s => s = fs.append file [b]) (Triple.call ?_ ?_) fun _ =>
      (ih (fs.append file [b])).conseq (fun _ h => h) ?_ (fun _ _ h => h) ?_
    · rintro s rfl
      exact ⟨0, Nat.succ_pos _, (Fs.append_nil ..).symm⟩
    · rintro s rfl
      rfl
    · rintro _ s rfl
      exact Fs.append_append ..
    · rintro s ⟨n, hn, rfl⟩
      exact ⟨n + 1, Nat.succ_lt_succ hn, Fs.append_append ..⟩

end DirM

namespace Naming

variable {N : Type} [DecidableEq N] {nm : Naming N} {crc : Bytes → UInt32}

/-- `acquire` goes by what it finds in the lock file. A crash may leave any part of the marker. -/
theorem acquire_rule (nm : Naming N) {e : StoreType} {fs : Fs N} {Q : Unit → Fs N → Prop}
    {E : Fault → Fs N → Prop} {C : Fs N → Prop} (hC : C fs)
    (hblank : checkMarker e ((fs.create nm.lock).bytes (fs.handle nm.lock)) = .blank →
      (∀ n, C ((fs.create nm.lock).append (fs.handle nm.lock) ((asBytes e.asStr).take n))) ∧
        Q () (((fs.create nm.lock).append (fs.handle nm.lock) (asBytes e.asStr)).sync
          (fs.handle nm.lock)))
    (hmine : checkMarker e ((fs.create nm.lock).bytes (fs.handle nm.lock)) = .mine →
      Q () (fs.create nm.lock))
    (hrefused : ∀ err,
      checkMarker e ((fs.create nm.lock).bytes (fs.handle nm.lock)) = .refused err →
        E (.error err) (fs.create nm.lock)) :
    Triple (· = fs) (nm.acquire e) Q E C := by
  refine Triple.bind (DirM.openCreate_spec nm.lock hC) fun i => Triple.get_bind ?_
  rintro s ⟨rfl, rfl⟩
  cases hc : checkMarker e ((fs.create nm.lock).bytes (fs.handle nm.lock)) with
  | blank =>
    obtain ⟨hpart, hwhole⟩ := hblank hc
    refine Triple.bind ((DirM.writeAll_spec _ _ _).conseq (fun _ h => h) (fun _ _ h => h)
      (fun _ _ h => h.elim) ?_) fun _ => Triple.call ?_ ?_
    · rintro s ⟨n, -, rfl⟩
      exact hpart n
    · rintro s rfl
      have hlast := hpart (asBytes e.asStr).length
      rwa [List.take_length] at hlast
    · rintro s rfl
      exact hwhole
  | mine =>
    refine Triple.pure ?_
    rintro s rfl
    exact hmine hc
  | refused err =>
    refine Triple.throw ?_
    rintro s rfl
    exact hrefused err hc

/-- Taking the lock file adds its name and no other. -/
theorem acquire_lookup (nm : Naming N) (e : StoreType) (fs : Fs N) :
    Triple (· = fs) (nm.acquire e) (fun _ s => s.lookup = (fs.create nm.lock).lookup)
      (fun _ s => s.lookup = (fs.create nm.lock).lookup) (fun _ => True) :=
  nm.acquire_rule trivial (fun _ => ⟨fun _ => trivial, rfl⟩) (fun _ => rfl) fun _ _ => rfl

/-! ## The walk -/

/-- No two files of the directory have the same file id. -/
def Unambiguous (nm : Naming N) (fs : Fs N) : Prop :=
  ∀ n m id, fs.lookup n ≠ none → fs.lookup m ≠ none → nm.classify n = .data id →
    nm.classify m = .data id → n = m

/-- What the walk removes: leftovers of merges, and hints without a data file. -/
def Removed (nm : Naming N) (fs : Fs N) (n : N) : Prop :=
  nm.classify n = .leftover ∨ ∃ id, nm.classify n = .hint id ∧ fs.lookup (nm.data id) = none

/-- What the walk has done after the names `pre` of the directory `fs₁`. -/
structure Walked (nm : Naming N) (fs₁ : Fs N) (pre : List N) (scan : Scan) (fs : Fs N) : Prop where
  gone : ∀ n ∈ pre, nm.Removed fs₁ n → fs.lookup n = none
  kept : ∀ n, ¬ (n ∈ pre ∧ nm.Removed fs₁ n) → fs.lookup n = fs₁.lookup n
  bytes : fs.bytes = fs₁.bytes
  synced : fs.synced = fs₁.synced
  next : fs.next = fs₁.next
  readers : ∀ id i, scan.readHandlers[id]? = some i ↔
    ∃ n ∈ pre, nm.classify n = .data id ∧ fs₁.lookup n = some i
  max_le : ∀ id i, scan.readHandlers[id]? = some i → ∃ m, scan.maxId = some m ∧ id ≤ m
  max_mem : ∀ m, scan.maxId = some m → scan.readHandlers[m]? ≠ none

section Walk

variable {fs₁ fs : Fs N} {pre : List N} {scan : Scan} {n : N}

theorem not_removed_data {id : ℕ} (h : nm.classify n = .data id) : ¬ nm.Removed fs₁ n := by
  rintro (h' | ⟨id', h', -⟩) <;> rw [h] at h' <;> cases h'

theorem Walked.lookup_data (h : Walked nm fs₁ pre scan fs) {id : ℕ}
    (hid : nm.classify n = .data id) : fs.lookup n = fs₁.lookup n :=
  h.kept n fun hn => not_removed_data hid hn.2

/-- A name that is no data file leaves the handles alone. -/
theorem Walked.pass (h : Walked nm fs₁ pre scan fs) {fs' : Fs N}
    (hself : nm.Removed fs₁ n → fs'.lookup n = none)
    (hkeep : ¬ nm.Removed fs₁ n → fs'.lookup n = fs.lookup n)
    (hother : ∀ m, m ≠ n → fs'.lookup m = fs.lookup m)
    (hfs : fs'.bytes = fs.bytes ∧ fs'.synced = fs.synced ∧ fs'.next = fs.next)
    (hdata : ∀ id, nm.classify n = .data id → fs₁.lookup n = none) :
    Walked nm fs₁ (pre ++ [n]) scan fs' where
  gone m hm hr := by
    by_cases hmn : m = n
    · subst hmn
      exact hself hr
    · rw [hother m hmn]
      refine h.gone m ((List.mem_append.mp hm).resolve_right fun hm => ?_) hr
      exact hmn (List.mem_singleton.mp hm)
  kept m hm := by
    by_cases hmn : m = n
    · subst hmn
      have hr : ¬ nm.Removed fs₁ m := fun hr => hm ⟨by simp, hr⟩
      rw [hkeep hr]
      exact h.kept m fun hm' => hr hm'.2
    · rw [hother m hmn]
      exact h.kept m fun hm' => hm ⟨List.mem_append_left _ hm'.1, hm'.2⟩
  bytes := hfs.1.trans h.bytes
  synced := hfs.2.1.trans h.synced
  next := hfs.2.2.trans h.next
  readers id i := by
    rw [h.readers]
    constructor
    · rintro ⟨m, hm, hrest⟩
      exact ⟨m, List.mem_append_left _ hm, hrest⟩
    · rintro ⟨m, hm, hc, hi⟩
      rcases List.mem_append.mp hm with hm | hm
      · exact ⟨m, hm, hc, hi⟩
      · obtain rfl := List.mem_singleton.mp hm
        rw [hdata id hc] at hi
        cases hi
  max_le := h.max_le
  max_mem := h.max_mem

/-- A data file is opened. -/
theorem Walked.open (h : Walked nm fs₁ pre scan fs) (hu : nm.Unambiguous fs₁) {id : ℕ} {i : Inode}
    (hid : nm.classify n = .data id) (hi : fs₁.lookup n = some i) :
    Walked nm fs₁ (pre ++ [n]) ⟨scan.readHandlers.insert id i,
      some (match scan.maxId with | none => id | some m => max m id)⟩ fs where
  gone m hm hr := by
    refine h.gone m ((List.mem_append.mp hm).resolve_right fun hm => ?_) hr
    exact not_removed_data hid (List.mem_singleton.mp hm ▸ hr)
  kept m hm := h.kept m fun hm' => hm ⟨List.mem_append_left _ hm'.1, hm'.2⟩
  bytes := h.bytes
  synced := h.synced
  next := h.next
  readers id' j := by
    by_cases hne : id' = id
    · subst hne
      rw [readers_insert_self]
      constructor
      · rintro hj
        exact ⟨n, by simp, hid, hi.trans hj⟩
      · rintro ⟨m, -, hm, hj⟩
        obtain rfl := hu m n id' (by rw [hj]; simp) (by rw [hi]; simp) hm hid
        exact hi.symm.trans hj
    · rw [readers_insert_ne hne, h.readers]
      constructor
      · rintro ⟨m, hm, hrest⟩
        exact ⟨m, List.mem_append_left _ hm, hrest⟩
      · rintro ⟨m, hm, hc, hj⟩
        rcases List.mem_append.mp hm with hm | hm
        · exact ⟨m, hm, hc, hj⟩
        · obtain rfl := List.mem_singleton.mp hm
          rw [hid] at hc
          exact absurd (DirEntry.data.inj hc).symm hne
  max_le id' j hj := by
    refine ⟨_, rfl, ?_⟩
    by_cases hne : id' = id
    · subst hne
      cases scan.maxId with
      | none => exact Nat.le_refl _
      | some m => exact Nat.le_max_right ..
    · simp only [readers_insert_ne hne] at hj
      obtain ⟨m, hm, hle⟩ := h.max_le id' j hj
      rw [hm]
      exact hle.trans (Nat.le_max_left ..)
  max_mem m hm := by
    by_cases hne : m = id
    · subst hne
      rw [readers_insert_self]
      simp
    · rw [readers_insert_ne hne]
      cases hmax : scan.maxId with
      | none =>
        rw [hmax] at hm
        exact absurd (Option.some.inj hm).symm hne
      | some m' =>
        rw [hmax] at hm
        have hm' : max m' id = m := Option.some.inj hm
        obtain rfl : m = m' := by omega
        exact h.max_mem m hmax

/-- A file that stays, and is no data file. -/
theorem Walked.stay (h : Walked nm fs₁ pre scan fs) (hr : ¬ nm.Removed fs₁ n)
    (hdata : ∀ id, nm.classify n ≠ .data id) : Walked nm fs₁ (pre ++ [n]) scan fs :=
  h.pass (fun h' => absurd h' hr) (fun _ => rfl) (fun _ _ => rfl) ⟨rfl, rfl, rfl⟩
    fun id hid => absurd hid (hdata id)

theorem Walked.unlink (h : Walked nm fs₁ pre scan fs) (hr : nm.Removed fs₁ n) :
    Walked nm fs₁ (pre ++ [n]) scan (fs.unlink n) :=
  h.pass (fun _ => Fs.lookup_unlink_self fs n) (fun h' => absurd hr h')
    (fun _ hm => Fs.lookup_unlink_ne fs hm) ⟨rfl, rfl, rfl⟩ fun _ hid => absurd hr (not_removed_data hid)

theorem scanEntry_walked (hu : nm.Unambiguous fs₁) (n : N) (scan : Scan) :
    Triple (Walked nm fs₁ pre scan) (nm.scanEntry scan n)
      (fun scan => Walked nm fs₁ (pre ++ [n]) scan) (fun _ _ => False) (fun _ => True) := by
  refine Triple.get_bind fun s hs => ?_
  cases hi : s.lookup n with
  | none =>
    refine Triple.pure ?_
    rintro _ rfl
    refine hs.pass (fun _ => hi) (fun _ => rfl) (fun _ _ => rfl) ⟨rfl, rfl, rfl⟩ fun id hid => ?_
    rw [← hs.lookup_data hid, hi]
  | some i =>
    simp only
    cases hc : nm.classify n with
    | data id =>
      refine Triple.pure ?_
      rintro _ rfl
      exact hs.open hu hc (by rw [← hs.lookup_data hc, hi])
    | leftover =>
      refine Triple.bind (Q := fun _ s' => s' = s.unlink n) (Triple.call ?_ ?_) fun _ => Triple.pure ?_
      · exact fun _ _ => trivial
      · rintro _ rfl; rfl
      · rintro _ rfl
        exact hs.unlink (Or.inl hc)
    | hint id =>
      -- the data file of the hint is none that the walk removes
      have hd := hs.lookup_data (nm.data_of_hint hc)
      simp only
      by_cases hnone : (s.lookup (nm.data id)).isNone = true
      · rw [if_pos hnone]
        refine Triple.bind (Q := fun _ s' => s' = s.unlink n) (Triple.call ?_ ?_)
          fun _ => Triple.pure ?_
        · exact fun _ _ => trivial
        · rintro _ rfl; rfl
        · rintro _ rfl
          exact hs.unlink (Or.inr ⟨id, hc, by rw [← hd]; simpa using hnone⟩)
      · rw [if_neg hnone]
        refine Triple.pure ?_
        rintro _ rfl
        refine hs.stay ?_ (by simp [hc])
        rintro (h | ⟨id', h, hnone'⟩) <;> rw [hc] at h
        · cases h
        · obtain rfl := DirEntry.hint.inj h
          rw [← hd] at hnone'
          rw [hnone'] at hnone
          exact hnone rfl
    | other =>
      refine Triple.pure ?_
      rintro _ rfl
      refine hs.stay ?_ (by simp [hc])
      rintro (h | ⟨id', h, -⟩) <;> rw [hc] at h <;> cases h

/-- The walk over the whole directory. -/
theorem walk (hu : nm.Unambiguous fs₁) (listing : List N) :
    Triple (· = fs₁) (listing.foldlM nm.scanEntry ⟨∅, none⟩) (fun scan => Walked nm fs₁ listing scan)
      (fun _ _ => False) (fun _ => True) := by
  refine (Triple.foldlM (fun pre scan => Walked nm fs₁ pre scan)
    (fun pre n post scan _ => scanEntry_walked hu n scan) ⟨∅, none⟩).conseq ?_
    (fun _ _ h => h) (fun _ _ h => h) (fun _ h => h)
  rintro s rfl
  refine ⟨by simp, fun _ _ => rfl, rfl, rfl, rfl, fun id i => ?_, fun id i hi => ?_, by simp⟩
  · rw [Std.TreeMap.getElem?_emptyc]
    simp
  · simp only [Std.TreeMap.getElem?_emptyc] at hi
    cases hi

end Walk

end Naming

/-- The same handles and the same highest id. -/
def Scan.Same (scan scan' : Scan) : Prop :=
  scan.maxId = scan'.maxId ∧ ∀ id : ℕ, scan.readHandlers[id]? = scan'.readHandlers[id]?

theorem Naming.Walked.unique {N : Type} [DecidableEq N] {nm : Naming N} {fs₁ fs fs' : Fs N}
    {l l' : List N} {scan scan' : Scan} (h : Walked nm fs₁ l scan fs) (h' : Walked nm fs₁ l' scan' fs')
    (hl : fs₁.Lists l) (hl' : fs₁.Lists l') : fs = fs' ∧ scan.Same scan' := by
  have hmem : ∀ n, n ∈ l ↔ n ∈ l' := fun n => (hl.2 n).trans (hl'.2 n).symm
  have hreaders : ∀ id : ℕ, scan.readHandlers[id]? = scan'.readHandlers[id]? := by
    intro id
    refine Option.ext fun i => ?_
    rw [h.readers, h'.readers]
    simp only [hmem]
  refine ⟨Fs.ext_lookup (fun n => ?_) (h.bytes.trans h'.bytes.symm) (h.synced.trans h'.synced.symm)
    (h.next.trans h'.next.symm), ?_, hreaders⟩
  · by_cases hn : n ∈ l ∧ nm.Removed fs₁ n
    · rw [h.gone n hn.1 hn.2, h'.gone n ((hmem n).mp hn.1) hn.2]
    · rw [h.kept n hn, h'.kept n (by rwa [← hmem])]
  · -- the highest id is that of a handle and not below one
    cases hm : scan.maxId with
    | none =>
      cases hm' : scan'.maxId with
      | none => rfl
      | some m' =>
        obtain ⟨i, hi⟩ := Option.ne_none_iff_exists'.mp (h'.max_mem m' hm')
        rw [← hreaders] at hi
        obtain ⟨m, hm₁, -⟩ := h.max_le m' i hi
        rw [hm] at hm₁
        cases hm₁
    | some m =>
      obtain ⟨i, hi⟩ := Option.ne_none_iff_exists'.mp (h.max_mem m hm)
      rw [hreaders] at hi
      obtain ⟨m', hm', hle⟩ := h'.max_le m i hi
      obtain ⟨i', hi'⟩ := Option.ne_none_iff_exists'.mp (h'.max_mem m' hm')
      rw [← hreaders] at hi'
      obtain ⟨m₁, hm₁, hle'⟩ := h.max_le m' i' hi'
      rw [hm] at hm₁
      obtain rfl := Option.some.inj hm₁
      rw [hm', Nat.le_antisymm hle hle']

end Bitcask
