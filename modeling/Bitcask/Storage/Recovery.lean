import Bitcask.Storage.Opened
import Bitcask.Storage.RefineMerge

/-!
# Recovery

`Disk` says that a directory holds a log: `open` succeeds on it, and the records of its data files,
read in ascending order of the ids, give every key its value in the log. A crash of a running store
leaves such a directory (`Link.disk`), a crash inside `open` keeps it (`Disk.opening`), and a store
opened on it is related to the abstract machine again (`Disk.link`).
-/

namespace Bitcask

open LittleEndian FileSystem SegmentedLog CrashHoare

/-- The directory holds the log. -/
structure Disk (crc : Bytes → UInt32) (fs : Fs FileName) (log : List Command) : Prop where
  openable : Openable crc fs
  faithful : Faithful crc fs
  bounded : Bounded fs
  /-- A hinted file is not the active one, and its records are all `Set` records. -/
  hints : ∀ id h i, fs.lookup (.hint id) = some h → fs.lookup (.data id) = some i →
    (∃ id', id < id' ∧ fs.lookup (.data id') ≠ none) ∧ ∀ c ∈ recordsIn crc fs i, c.IsSet
  hint_data : ∀ id, fs.lookup (.hint id) ≠ none → ∃ id', fs.lookup (.data id') ≠ none
  text : ∀ c ∈ log, c.Text
  final : ∀ k, Final (fun id => events (segsOf (recordsIn crc fs) fs id)) k (valueOf k log)

section Disk

variable {crc : Bytes → UInt32} {cfg : Config} {recs : Inode → List Command}
  {log pub : List Command} {s : Sys} {a : CompactingLog.State Bytes Bytes}
  {fs₀ fs : Fs FileName} {id : ℕ} {i : Inode}

theorem recordsOf_nil : recordsOf crc [] = [] := by
  have h : recordsOf crc (encodeAll crc []) = [] := recordsOf_sealed (by simp)
  exact h

theorem Sealed.nil : Sealed crc [] := ⟨[], rfl, by simp⟩

theorem Disk.of_none (hnone : ∀ n, fs.lookup n = none) : Disk crc fs [] := by
  refine ⟨⟨Or.inl ?_, fun h => ?_⟩, fun h => ?_, fun h => ?_, fun id h i hh => ?_, fun id hh => ?_,
    by simp, fun k => ?_⟩
  · rw [Fs.read, hnone]; rfl
  · rw [hnone] at h; cases h
  · rw [hnone] at h; cases h
  · rw [hnone] at h; cases h
  · rw [hnone] at hh; cases hh
  · exact absurd (hnone _) hh
  · refine Or.inr ⟨rfl, fun id => ?_⟩
    show lastOf k (events (segsOf _ _ id)) = none
    rw [segsOf_none _ (hnone _)]; rfl

theorem Disk.empty : Disk crc Fs.empty [] := Disk.of_none fun _ => rfl

/-- A crash inside `open` keeps the log. -/
theorem Disk.opening (h : Disk crc fs₀ log) (ho : Opening fs₀ fs) (ht : ¬ TornMarker fs) :
    Disk crc fs log := by
  have hsegs : ∀ id, segsOf (recordsIn crc fs) fs id = segsOf (recordsIn crc fs₀) fs₀ id := by
    intro id
    cases hi : fs₀.lookup (.data id) with
    | some i =>
      obtain ⟨hi', hb, -⟩ := ho.data hi
      rw [segsOf_some _ hi, segsOf_some _ hi', recordsIn, recordsIn, hb]
    | none =>
      rw [segsOf_none _ hi]
      cases hi' : fs.lookup (.data id) with
      | none => rw [segsOf_none _ hi']
      | some i =>
        rw [segsOf_some _ hi', recordsIn]
        rcases ho.fresh hi' with h₀ | ⟨-, -, hnil⟩
        · rw [hi] at h₀; cases h₀
        · rw [hnil, recordsOf_nil]
  have hhint : ∀ {id j}, fs.lookup (.hint id) = some j → ¬ ∀ id, fs₀.lookup (.data id) = none := by
    intro id j hj hnone
    obtain ⟨id', hd⟩ := h.hint_data id (by rw [(ho.hint hj).1]; simp)
    exact hd (hnone id')
  have hmarker : MarkerOk (fs.read .lock) := (ho.marker h.openable.1).ok h.openable.1 ht
  refine ⟨⟨hmarker, fun {id i} hi => ?_⟩, fun {id j i} hj hi => ?_, ho.bounded h.bounded,
    fun id j i hj hi => ?_, fun id hj => ?_, h.text, fun k => ?_⟩
  · rcases ho.fresh hi with h₀ | ⟨-, -, hnil⟩
    · rw [(ho.data h₀).2.1]
      refine ⟨(h.openable.2 h₀).1, ?_⟩
      rintro ⟨id', hlt, hd⟩
      refine (h.openable.2 h₀).2 ⟨id', hlt, ?_⟩
      obtain ⟨i', hi'⟩ := Option.ne_none_iff_exists'.mp hd
      rcases ho.fresh hi' with h₁ | ⟨-, hnone, -⟩
      · rw [h₁]; simp
      · rw [hnone] at h₀; cases h₀
    · rw [hnil]
      exact ⟨Sealed.nil.readable, fun _ => Sealed.nil⟩
  · obtain ⟨hj₀, hbj, -⟩ := ho.hint hj
    rcases ho.fresh hi with h₀ | ⟨-, hnone, -⟩
    · rw [hbj, (ho.data h₀).2.1]
      exact h.faithful hj₀ h₀
    · exact absurd hnone (hhint hj)
  · obtain ⟨hj₀, -, -⟩ := ho.hint hj
    rcases ho.fresh hi with h₀ | ⟨-, hnone, -⟩
    · obtain ⟨⟨id', hlt, hd⟩, hsets⟩ := h.hints id j i hj₀ h₀
      obtain ⟨i', hi'⟩ := Option.ne_none_iff_exists'.mp hd
      refine ⟨⟨id', hlt, by rw [(ho.data hi').1]; simp⟩, ?_⟩
      rw [recordsIn, (ho.data h₀).2.1]
      exact hsets
    · exact absurd hnone (hhint hj)
  · obtain ⟨j, hj'⟩ := Option.ne_none_iff_exists'.mp hj
    obtain ⟨id', hd⟩ := h.hint_data id (by rw [(ho.hint hj').1]; simp)
    obtain ⟨i', hi'⟩ := Option.ne_none_iff_exists'.mp hd
    exact ⟨id', by rw [(ho.data hi').1]; simp⟩
  · have hfun : (fun id => events (segsOf (recordsIn crc fs) fs id)) =
        fun id => events (segsOf (recordsIn crc fs₀) fs₀ id) := funext fun id => by rw [hsegs]
    rw [hfun]
    exact h.final k

/-- `open` succeeds on such a directory. -/
theorem Disk.opens (h : Disk crc fs₀ log) {listing : List FileName} {now : ℕ}
    (hlist : (fs₀.create .lock).Lists listing) :
    ∃ s, (openStore crc listing now fs₀).result = .ok s ∧ Opened crc fs₀ s :=
  h.openable.opens (Faithful.sealed h.faithful) h.bounded hlist

/-! ## After `open` -/

/-- The records of the directory are those `open` found. -/
theorem Opened.segs (h : Opened crc fs₀ s)
    (hrecs : ∀ {id i}, s.fs.lookup (.data id) = some i → recs i = recordsIn crc s.fs i) (id : ℕ) :
    segsOf recs s.fs id = segsOf (recordsIn crc fs₀) fs₀ id := by
  cases hi : fs₀.lookup (.data id) with
  | some i =>
    obtain ⟨hi', hr, hb, -⟩ := h.old hi
    obtain ⟨t, -, -, hfits⟩ := hr.eq
    rw [segsOf_some _ hi, segsOf_some _ hi', hrecs hi', recordsIn, hb]
    exact recordsOf_sealed hfits
  | none =>
    rw [segsOf_none _ hi]
    cases hi' : s.fs.lookup (.data id) with
    | none => rw [segsOf_none _ hi']
    | some i =>
      rw [segsOf_some _ hi', hrecs hi', recordsIn]
      rcases h.fresh hi' with h₀ | ⟨-, -, hnil⟩
      · rw [hi] at h₀; cases h₀
      · rw [hnil, recordsOf_nil]

/-- What `open` took from the file with the id: its records if it is the active file, else its hint
if it had one. -/
def replayedIn (crc : Bytes → UInt32) (fs₀ : Fs FileName) (s : Sys) (id : ℕ) :
    List (Bytes × Option Bytes) :=
  replayed (id ≠ s.writer.currentFileId ∧ (fs₀.lookup (.hint id)).isSome)
    (segsOf (recordsIn crc s.fs) s.fs id)

/-- The index of the opened store gives every key the value that the replayed files, read in the
order of their ids, give it. -/
theorem Opened.final (ho : Opened crc fs₀ s) :
    ∃ evs, Represents crc (recordsIn crc s.fs) (s.readers[·]?) evs s.index ∧
      ∀ k, Final (replayedIn crc fs₀ s) k (value k evs) := by
  obtain ⟨front, hlist, hrep⟩ := ho.represents
  refine ⟨_, hrep, fun k => ?_⟩
  have hmem : ∀ f, f ∈ s.readers.toList ↔ s.fs.lookup (.data f.1) = some f.2 := fun f =>
    Std.TreeMap.mem_toList_iff_getElem?_eq_some.trans (ho.readers f.1 f.2)
  have hsorted : (s.readers.toList.map Prod.fst).Pairwise (· < ·) := by
    rw [List.pairwise_map]
    exact s.readers.ordered_keys_toList.imp fun hlt => Nat.compare_eq_lt.mp hlt
  have hcover : ∀ id, replayedIn crc fs₀ s id ≠ [] → id ∈ s.readers.toList.map Prod.fst := by
    intro id hne
    cases hi : s.fs.lookup (.data id) with
    | none =>
      unfold replayedIn at hne
      rw [segsOf_none _ hi] at hne
      exact absurd (replayed_sets (by simp) _) hne
    | some i => exact List.mem_map.mpr ⟨(id, i), (hmem _).mpr hi, rfl⟩
  have hfront : ∀ f ∈ front, replayedIn crc fs₀ s f.1 =
      replayed (fs₀.lookup (.hint f.1)).isSome (recordsIn crc s.fs f.2) := by
    intro f hf
    have hlt : f.1 < s.writer.currentFileId := by
      rw [hlist, List.map_append, List.pairwise_append] at hsorted
      exact hsorted.2.2 _ (List.mem_map_of_mem hf) _ (by simp)
    unfold replayedIn
    rw [segsOf_some _ ((hmem f).mp (by rw [hlist]; simp [hf]))]
    simp only [ne_eq, Nat.ne_of_lt hlt, not_false_eq_true, true_and, Bool.decide_eq_true]
  have hactive : replayedIn crc fs₀ s s.writer.currentFileId =
      events (recordsIn crc s.fs s.writer.file) := by
    unfold replayedIn
    rw [segsOf_some _ ho.current, decide_eq_false (by simp)]
    exact replayed_false _
  have hflat : (s.readers.toList.map Prod.fst).flatMap (replayedIn crc fs₀ s) =
      front.flatMap (fun f => replayed (fs₀.lookup (.hint f.1)).isSome (recordsIn crc s.fs f.2)) ++
        events (recordsIn crc s.fs s.writer.file) := by
    rw [List.flatMap_map, hlist, List.flatMap_append, List.flatMap_congr hfront,
      List.flatMap_singleton, hactive]
  rw [← hflat]
  exact final_of_sorted hsorted hcover k

/-- The index of the opened store gives every key its value in the log. -/
theorem Disk.represents (h : Disk crc fs₀ log) (ho : Opened crc fs₀ s) :
    Represents crc (recordsIn crc s.fs) (s.readers[·]?) (events log) s.index := by
  obtain ⟨evs, hrep, hfinal⟩ := ho.final
  refine hrep.congr fun k => (h.final k).unique ((hfinal k).congr fun id => congrArg (lastOf k) ?_)
  unfold replayedIn
  rw [← ho.segs (fun _ => rfl) id]
  -- a hinted file has `Set` records only
  cases hh : fs₀.lookup (.hint id) with
  | none =>
    rw [decide_eq_false (by simp)]
    exact (replayed_false _).symm
  | some j =>
    refine (replayed_sets (fun c hc => ?_) _).symm
    rw [ho.segs (fun _ => rfl) id] at hc
    cases h₀ : fs₀.lookup (.data id) with
    | none =>
      rw [segsOf_none _ h₀] at hc
      cases hc
    | some i =>
      rw [segsOf_some _ h₀] at hc
      exact (h.hints id j i hh h₀).2 c hc

/-- The abstract machine when the store is opened: the whole log is durable. -/
def openedState (recs : Inode → List Command) (log : List Command) (s : Sys) :
    CompactingLog.State Bytes Bytes where
  segs id := events (segsOf recs s.fs id)
  cur := s.writer.currentFileId
  durable := events log
  volatile := []
  pub := events log
  loc k := (s.index.get k).map IndexValue.pos
  phase := .idle

/-- An opened store is related to the abstract machine. -/
theorem Disk.link (h : Disk crc fs₀ log) (ho : Opened crc fs₀ s) (cfg : Config) :
    ∃ recs, Link crc cfg recs log log s (openedState recs log s) := by
  obtain ⟨recs, hrecs, hrep⟩ := ho.rep cfg
  have hrepr : Represents crc recs (fun id => s.fs.lookup (.data id)) (events log) s.index := by
    refine (h.represents ho).frame fun {k e i} _ hi => ?_
    have hi' := (ho.readers _ _).mp hi
    exact ⟨hi', by rw [hrecs hi']⟩
  refine ⟨recs, hrep, ?_, hrepr, ?_, h.text, by simp [ho.free], ?_, fun id => ?_, rfl, ?_, rfl,
    fun k => rfl, ?_, ?_⟩
  · refine ⟨Or.inl ?_, fun j hj => ?_, fun k => ?_, fun k => ?_, fun k p hp => ?_, trivial⟩
    · exact (List.append_nil _).symm
    · show events (segsOf recs s.fs j) = []
      cases hi : s.fs.lookup (.data j) with
      | none => rw [segsOf_none _ hi]; rfl
      | some i => exact absurd (ho.le_current hi) (Nat.not_le_of_lt hj)
    · refine (h.final k).congr fun id => ?_
      show lastOf k (events (segsOf recs s.fs id)) = _
      rw [ho.segs hrecs]
    · exact Option.map_eq_none_iff.trans hrepr.get_eq_none_iff
    · obtain ⟨e, he, rfl⟩ := Option.map_eq_some_iff.mp hp
      obtain ⟨i, v, -, hi, hat, -⟩ := hrepr.entry he
      show lastOf k (CompactingLog.withTail _ _ [] e.fileId) ≠ none
      rw [CompactingLog.withTail_nil]
      show lastOf k (events (segsOf recs s.fs e.fileId)) ≠ none
      rw [segsOf_some _ hi]
      exact lastOf_ne_none_of_mem hat.mem rfl
  · intro id j i hj hi
    obtain ⟨hj₀, hbj, -⟩ := ho.hint hj
    obtain ⟨i₀, hi₀⟩ := Option.ne_none_iff_exists'.mp (ho.orphan id (by rw [hj]; simp))
    obtain ⟨hi₀', -⟩ := ho.old hi₀
    obtain rfl := Option.some.inj (hi.symm.trans hi₀')
    obtain ⟨⟨id', hlt, hd⟩, hsets⟩ := h.hints id j i hj₀ hi₀
    obtain ⟨i', hi'⟩ := Option.ne_none_iff_exists'.mp hd
    have hseg := ho.segs hrecs id
    rw [segsOf_some _ hi, segsOf_some _ hi₀] at hseg
    obtain ⟨cs, hb, hh, hfits⟩ := h.faithful hj₀ hi₀
    have hcs : recordsIn crc fs₀ i = cs := by rw [recordsIn, hb, recordsOf_sealed hfits]
    refine ⟨hlt.trans_le (ho.le_current (ho.old hi').1), ?_, ?_⟩
    · rw [hbj, hh, hseg, hcs]
    · rw [hseg]; exact hsets
  · rw [ho.free]
    exact (List.append_nil log).symm
  · show CompactingLog.withTail _ _ [] id = _
    rw [CompactingLog.withTail_nil]
    rfl
  · exact List.append_nil _
  · rw [ho.idle]; rfl
  · intro r hr
    rw [ho.idle] at hr; cases hr

/-! ## After a crash -/

/-- The active file is its records and at most a torn tail. -/
theorem Rep.active_bytes (h : Rep crc cfg recs s) :
    ∃ t, s.fs.bytes s.writer.file = encodeAll crc (recs s.writer.file) ++ t ∧ (t = [] ∨ Torn t) := by
  have hlr := h.lock
  have hwhole : Whole crc recs s.fs s.writer → ∃ t,
      s.fs.bytes s.writer.file = encodeAll crc (recs s.writer.file) ++ t ∧ (t = [] ∨ Torn t) :=
    fun hw => ⟨[], by rw [List.append_nil, hw.1], Or.inl rfl⟩
  cases hl : s.lock with
  | free | poisoned =>
    rw [hl] at hlr
    obtain ⟨t, hb, ht, -⟩ := hlr
    exact ⟨t, hb, ht⟩
  | writing c done =>
    rw [hl] at hlr
    obtain ⟨hfits, hle, old, hrecs, hb, -⟩ := hlr
    by_cases hdone : done = (c.serialize crc).length
    · rw [if_pos hdone] at hrecs
      refine ⟨[], ?_, Or.inl rfl⟩
      rw [hb, hrecs, hdone, List.take_length, encodeAll_append, encodeAll_cons]
      simp
    · rw [if_neg hdone] at hrecs
      refine ⟨_, by rw [hb, hrecs], (Nat.eq_zero_or_pos done).imp ?_ fun hpos => ?_⟩
      · rintro rfl; rfl
      · exact (IsFrame.serialize crc hfits).take_torn hpos (by omega)
  | policy c | rotateIfFull c =>
    rw [hl] at hlr
    exact hwhole hlr
  | rotateTo st next caller =>
    rw [hl] at hlr
    cases st <;> exact hwhole hlr.1

/-- The records of a data file are what `open` will find in it. -/
theorem Rep.recordsIn_eq (h : Rep crc cfg recs s) (hi : s.fs.lookup (.data id) = some i) :
    recordsIn crc s.fs i = recs i ∧ Readable crc (s.fs.bytes i) ∧
      (id ≠ s.writer.currentFileId → Sealed crc (s.fs.bytes i)) := by
  have hfits := h.core.fits i
  obtain ⟨t, hb, ht⟩ : ∃ t, s.fs.bytes i = encodeAll crc (recs i) ++ t ∧ (t = [] ∨ Torn t) ∧
      (id ≠ s.writer.currentFileId → t = []) := by
    by_cases hid : id = s.writer.currentFileId
    · subst hid
      obtain rfl := Option.some.inj (hi.symm.trans h.core.cur_dir)
      obtain ⟨t, hb, ht⟩ := h.active_bytes
      exact ⟨t, hb, ht, fun hne => absurd rfl hne⟩
    · obtain ⟨t, hb, ht⟩ := h.core.rd_bytes (h.core.dir_rd hi)
      have ht := ht fun he => hid (FileName.data.inj (s.fs.dir_inj _ _ _ (he ▸ hi) h.core.cur_dir))
      exact ⟨t, hb, Or.inl ht, fun _ => ht⟩
  refine ⟨?_, ⟨_, t, hb, ht.1, hfits⟩, fun hid => ⟨recs i, ?_, hfits⟩⟩
  · rw [recordsIn, hb]
    exact recordsOf_encodeAll hfits ht.1
  · rw [hb, ht.2 hid, List.append_nil]

/-- A crash leaves the log in the directory. -/
theorem Link.disk (h : Link crc cfg recs log pub s a) (hm : MarkerOk (s.fs.read .lock)) :
    Disk crc s.fs log := by
  have hrec : ∀ {id i}, s.fs.lookup (.data id) = some i → recordsIn crc s.fs i = recs i :=
    fun hi => (h.rep.recordsIn_eq hi).1
  have hcur : s.fs.lookup (.data s.writer.currentFileId) ≠ none := by
    rw [h.rep.core.cur_dir]; simp
  have hle : ∀ {id i}, s.fs.lookup (.data id) = some i → id ≤ s.writer.currentFileId :=
    fun hi => h.rep.core.rd_le (h.rep.core.dir_rd hi)
  refine ⟨⟨hm, fun {id i} hi => ?_⟩, fun {id j i} hj hi => ?_,
    fun hi => h.rep.core.rd_len (h.rep.core.dir_rd hi), fun id j i hj hi => ?_,
    fun id _ => ⟨_, hcur⟩, h.text, fun k => ?_⟩
  · obtain ⟨-, hr, hs⟩ := h.rep.recordsIn_eq hi
    refine ⟨hr, ?_⟩
    rintro ⟨id', hlt, hd⟩
    refine hs ?_
    obtain ⟨i', hi'⟩ := Option.ne_none_iff_exists'.mp hd
    have := hle hi'
    omega
  · obtain ⟨hlt, hb, -⟩ := h.hints id j i hj hi
    obtain ⟨hrecs, -, hs⟩ := h.rep.recordsIn_eq hi
    obtain ⟨he, hfits⟩ := (hs (Nat.ne_of_lt hlt)).eq
    exact ⟨recs i, by rw [← hrecs]; exact he, hb, h.rep.core.fits i⟩
  · obtain ⟨hlt, -, hsets⟩ := h.hints id j i hj hi
    exact ⟨⟨_, hlt, hcur⟩, by rw [hrec hi]; exact hsets⟩
  · have hview := h.inv.final_view a.volatile k
    rw [show a.durable ++ a.volatile = events log from h.log_eq] at hview
    refine hview.congr fun id => ?_
    rw [h.segs]
    show lastOf k (events (segsOf (recordsIn crc s.fs) s.fs id)) = _
    rw [segsOf_congr rfl hrec]

end Disk

end Bitcask
