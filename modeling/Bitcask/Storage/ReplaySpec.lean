import Bitcask.Storage.OpenSpec

/-!
# What the replay computes

The replay walks the data files in ascending order of their ids. The index it builds represents the
concatenation of what the files say, where a sealed file with a hint that decodes says only its
`Set` records (`replayed`). The active file loses a torn tail.
-/

namespace Bitcask

open LittleEndian FileSystem CrashHoare SegmentedLog

variable (crc : Bytes → UInt32)

/-- Put a record at the end of a list. -/
def collect (acc : List Command) (_position : ℕ) (b : Bytes) : Except KvsError (List Command) :=
  (Command.deserialize crc b).map fun r => acc ++ [r.1]

/-- The whole records at the start of a file. -/
def recordsOf (b : Bytes) : List Command :=
  match forRecordsOf (collect crc) b [] with
  | .done cs _ => cs
  | .stop cs _ => cs
  | .panic => []

/-- A file of whole records, with at most a torn tail. -/
def Readable (b : Bytes) : Prop :=
  ∃ cs t, b = encodeAll crc cs ++ t ∧ (t = [] ∨ Torn t) ∧ ∀ c ∈ cs, c.Fits

/-- A file of whole records. -/
def Sealed (b : Bytes) : Prop := ∃ cs, b = encodeAll crc cs ∧ ∀ c ∈ cs, c.Fits

/-- Every hint file lists exactly the `Set` records of the data file of the same id. -/
def Faithful (fs : Fs FileName) : Prop :=
  ∀ {id h i}, fs.lookup (.hint id) = some h → fs.lookup (.data id) = some i →
    ∃ cs, fs.bytes i = encodeAll crc cs ∧ fs.bytes h = hintsOf crc 0 cs ∧ ∀ c ∈ cs, c.Fits

/-- The hint of the file with the id, if there is one, lists exactly its `Set` records. -/
def FaithfulAt (fs : Fs FileName) (id : ℕ) : Prop :=
  ∀ {h i}, fs.lookup (.hint id) = some h → fs.lookup (.data id) = some i →
    ∃ cs, fs.bytes i = encodeAll crc cs ∧ fs.bytes h = hintsOf crc 0 cs ∧ ∀ c ∈ cs, c.Fits

/-- The hints of all files but the last one are faithful. `open` does not read the other one. -/
def SealedFaithful (fs : Fs FileName) : Prop :=
  ∀ {id}, (∃ id', id < id' ∧ fs.lookup (.data id') ≠ none) → FaithfulAt crc fs id

/-- What the replay of a file says about keys: with a hint that decodes, only its `Set`
records. -/
def replayed (hinted : Bool) (cs : List Command) : List (Bytes × Option Bytes) :=
  if hinted = true ∧ ∀ c ∈ cs, c.IsSet → HintFits c then events (setsOf cs) else events cs

section Records

variable {crc}

theorem Faithful.sealed {fs : Fs FileName} (h : Faithful crc fs) : SealedFaithful crc fs :=
  fun _ _ _ hj hi => h hj hi

theorem foldRecords_collect {cs : List Command} (hfits : ∀ c ∈ cs, c.Fits) (acc : List Command)
    (p : ℕ) : foldRecords (collect crc) p (cs.map (Command.serialize crc)) acc = .ok (acc ++ cs) := by
  induction cs generalizing acc p with
  | nil => simp [foldRecords]
  | cons c cs ih =>
    have hd := Command.deserialize_serialize crc (hfits c List.mem_cons_self) []
    rw [List.append_nil] at hd
    refine bind_eq_ok.mpr ⟨acc ++ [c], by rw [collect, hd]; rfl, ?_⟩
    rw [ih fun d hd => hfits d (List.mem_cons_of_mem _ hd)]
    simp

theorem recordsOf_encodeAll {cs : List Command} (hfits : ∀ c ∈ cs, c.Fits) {t : Bytes}
    (ht : t = [] ∨ Torn t) : recordsOf crc (encodeAll crc cs ++ t) = cs := by
  have hrun := forRecordsOf_done (isFrame_of_mem crc hfits) ht (foldRecords_collect hfits [] 0)
  rw [← encodeAll_eq_flatten, List.nil_append] at hrun
  rw [recordsOf, hrun]

theorem recordsOf_sealed {cs : List Command} (hfits : ∀ c ∈ cs, c.Fits) :
    recordsOf crc (encodeAll crc cs) = cs := by
  have hr : recordsOf crc (encodeAll crc cs ++ []) = cs := recordsOf_encodeAll hfits (Or.inl rfl)
  rwa [List.append_nil] at hr

theorem Sealed.eq {b : Bytes} (h : Sealed crc b) :
    b = encodeAll crc (recordsOf crc b) ∧ ∀ c ∈ recordsOf crc b, c.Fits := by
  obtain ⟨cs, rfl, hfits⟩ := h
  rw [recordsOf_sealed hfits]
  exact ⟨rfl, hfits⟩

theorem Readable.eq {b : Bytes} (h : Readable crc b) :
    ∃ t, b = encodeAll crc (recordsOf crc b) ++ t ∧ (t = [] ∨ Torn t) ∧
      ∀ c ∈ recordsOf crc b, c.Fits := by
  obtain ⟨cs, t, rfl, ht, hfits⟩ := h
  rw [recordsOf_encodeAll hfits ht]
  exact ⟨t, rfl, ht, hfits⟩

/-- Without its torn tail the file is its records. -/
theorem Readable.take {b : Bytes} (h : Readable crc b) :
    b.take (encodeAll crc (recordsOf crc b)).length = encodeAll crc (recordsOf crc b) := by
  obtain ⟨cs, t, rfl, ht, hfits⟩ := h
  rw [recordsOf_encodeAll hfits ht]
  exact List.take_left

theorem Sealed.readable {b : Bytes} (h : Sealed crc b) : Readable crc b := by
  obtain ⟨cs, rfl, hfits⟩ := h
  exact ⟨cs, [], by simp, Or.inl rfl, hfits⟩

theorem replayed_false (cs : List Command) : replayed false cs = events cs := by
  simp [replayed]

/-- A file of `Set` records says the same with and without its hint. -/
theorem replayed_sets {cs : List Command} (h : ∀ c ∈ cs, c.IsSet) (hinted : Bool) :
    replayed hinted cs = events cs := by
  unfold replayed
  split
  · rw [setsOf, List.filter_eq_self.mpr fun c hc => by simpa using h c hc]
  · rfl

end Records

/-! ## One file -/

/-- The loader after the records of a sealed file. -/
def Loader.loaded (fileId : ℕ) (cs : List Command) (l : Loader) : Loader :=
  { l with
    index := loadAll crc fileId 0 cs l.index
    writer := { l.writer with
      offset := (encodeAll crc cs).length
      staleBytesCount := l.writer.staleBytesCount + removedBytes crc cs } }

section File

variable {crc} {fs₀ fs : Fs FileName} {l : Loader} {id : ℕ} {i : Inode}

/-- What a loader keeps while it replays. -/
structure Loader.Extends (l l' : Loader) : Prop where
  readers : l'.readers = l.readers
  cur : l'.writer.currentFileId = l.writer.currentFileId
  file : l'.writer.file = l.writer.file
  placed : l.index.Placed → l'.index.Placed

theorem Loader.Extends.trans {l l' l'' : Loader} (h : l.Extends l') (h' : l'.Extends l'') :
    l.Extends l'' :=
  ⟨h'.readers.trans h.readers, h'.cur.trans h.cur, h'.file.trans h.file,
    fun hp => h'.placed (h.placed hp)⟩

/-- The data path over a sealed file. -/
theorem replayData_sealed (hne : id ≠ l.writer.currentFileId) (C : Fs FileName → Prop) :
    Triple (· = fs) (replayData crc id i l)
      (fun r fs' => fs' = fs ∧ r.2 = true ∧ Sealed crc (fs.bytes i) ∧ l.Extends r.1 ∧
        Loads crc id (recordsOf crc (fs.bytes i)) (events (recordsOf crc (fs.bytes i))) l.index
          r.1.index)
      (fun e fs' => e ≠ .panic ∧ fs' = fs ∧ ¬ Sealed crc (fs.bytes i)) C := by
  refine Triple.get_bind ?_
  rintro s rfl
  simp only
  by_cases hsealed : Sealed crc (s.bytes i)
  · obtain ⟨hb, hfits⟩ := hsealed.eq
    have hrun := forRecordsOf_encodeAll crc id hfits (Or.inl rfl)
      { l with writer := { l.writer with offset := 0 } }
    rw [List.append_nil, ← hb] at hrun
    rw [hrun]
    refine Triple.pure ?_
    rintro _ rfl
    exact ⟨rfl, rfl, hsealed, ⟨rfl, rfl, rfl, placed_loadAll⟩, loads_loadAll _ _⟩
  · split
    · rename_i hrun
      exact absurd hrun (forRecordsOf_ne_panic _ _)
    · exact Triple.throw fun _ hs => ⟨by simp, hs, hsealed⟩
    · -- the loop reached the end, so the file is sealed
      rename_i l' hrun
      obtain ⟨cs, t, hb, ht, hfits⟩ := forRecordsOf_data hrun
      have hrun' := forRecordsOf_encodeAll crc id hfits ht
        { l with writer := { l.writer with offset := 0 } }
      rw [← hb, hrun] at hrun'
      have htorn : tornAt (encodeAll crc cs).length t = none := (Loop.done.inj hrun').2.symm
      have hnil : t = [] := by
        by_contra hne
        rw [tornAt, if_neg hne] at htorn; cases htorn
      exact absurd ⟨cs, by rw [hb, hnil, List.append_nil], hfits⟩ hsealed
    · rename_i l' p hrun
      have hcur : l'.writer.currentFileId = l.writer.currentFileId := by
        obtain ⟨cs, t, hb, ht, hfits⟩ := forRecordsOf_data hrun
        have hrun' := forRecordsOf_encodeAll crc id hfits ht
          { l with writer := { l.writer with offset := 0 } }
        rw [← hb, hrun] at hrun'
        rw [(Loop.done.inj hrun').1]
      rw [if_neg (by rw [hcur]; exact hne)]
      exact Triple.throw fun _ hs => ⟨by simp, hs, hsealed⟩

/-- The data path over the active file, which loses a torn tail. -/
theorem replayData_active (hid : id = l.writer.currentFileId) (hi : i = l.writer.file)
    {C : Fs FileName → Prop} (hC : C fs) :
    Triple (· = fs) (replayData crc id i l)
      (fun r fs' => Readable crc (fs.bytes i) ∧ l.Extends r.1 ∧
        r.1.writer.offset = (encodeAll crc (recordsOf crc (fs.bytes i))).length ∧
        (fs' = fs ∧ fs.bytes i = encodeAll crc (recordsOf crc (fs.bytes i)) ∨
          fs' = fs.setLen i (encodeAll crc (recordsOf crc (fs.bytes i))).length) ∧
        Loads crc id (recordsOf crc (fs.bytes i)) (events (recordsOf crc (fs.bytes i))) l.index
          r.1.index)
      (fun e fs' => e ≠ .panic ∧ fs' = fs ∧ ¬ Readable crc (fs.bytes i)) C := by
  refine Triple.get_bind ?_
  rintro s rfl
  simp only
  by_cases hread : Readable crc (s.bytes i)
  · obtain ⟨t, hb, ht, hfits⟩ := hread.eq
    set cs := recordsOf crc (s.bytes i) with hcs
    have hrun := forRecordsOf_encodeAll crc id hfits ht
      { l with writer := { l.writer with offset := 0 } }
    rw [← hb] at hrun
    rw [hrun]
    by_cases hnil : t = []
    · have htorn : tornAt (encodeAll crc cs).length t = none := if_pos hnil
      rw [htorn]
      refine Triple.pure ?_
      rintro _ rfl
      refine ⟨hread, ⟨rfl, rfl, rfl, placed_loadAll⟩, ?_, Or.inl ⟨rfl, ?_⟩, loads_loadAll _ _⟩
      · simp
      · rw [hb, hnil, List.append_nil]
    · have htorn : tornAt (encodeAll crc cs).length t = some (encodeAll crc cs).length := if_neg hnil
      rw [htorn]
      simp only [hid, if_true]
      refine Triple.bind (Q := fun _ fs => fs = s.setLen i (encodeAll crc cs).length)
        (Triple.call ?_ ?_) fun _ => Triple.pure ?_
      · rintro _ rfl; exact hC
      · rintro _ rfl; rw [hi]
      · rintro _ rfl
        exact ⟨hread, ⟨rfl, rfl, rfl, placed_loadAll⟩, rfl, Or.inr rfl, hid ▸ loads_loadAll _ _⟩
  · split
    · rename_i hrun
      exact absurd hrun (forRecordsOf_ne_panic _ _)
    · exact Triple.throw fun _ hs => ⟨by simp, hs, hread⟩
    · rename_i hrun
      exact absurd (forRecordsOf_data hrun) hread
    · rename_i hrun
      exact absurd (forRecordsOf_data hrun) hread

theorem replayFile_active (hid : id = l.writer.currentFileId) :
    storeNames.replayFile crc l id i fs = replayData crc id i l fs := by
  unfold Naming.replayFile
  show (Prog.bind Prog.get _ fs) = _
  cases hh : fs.lookup (.hint id) with
  | none => simp only [Prog.bind, Prog.get, hh, List.nil_append]
  | some h =>
    simp only [Prog.bind, Prog.get, hh, if_neg (not_not.mpr hid), List.nil_append]

/-- The data path over a file of whole records, as an equation. -/
theorem replayData_eq {cs : List Command} (hb : fs.bytes i = encodeAll crc cs) (hfits : ∀ c ∈ cs, c.Fits) :
    replayData crc id i l fs = ⟨[], .ok (l.loaded crc id cs, true), fs⟩ := by
  have hrun := forRecordsOf_encodeAll crc id hfits (Or.inl rfl)
    { l with writer := { l.writer with offset := 0 } }
  have htorn : tornAt (encodeAll crc cs).length [] = none := rfl
  rw [List.append_nil, htorn] at hrun
  unfold replayData
  show (Prog.bind Prog.get _ fs) = _
  simp only [Prog.bind, Prog.get, hb, hrun, Nat.zero_add, List.nil_append]
  rfl

/-- The active file, which loses a torn tail. -/
theorem replayData_active_eq {cs : List Command} {t : Bytes} (hid : id = l.writer.currentFileId)
    (hi : i = l.writer.file) (hb : fs.bytes i = encodeAll crc cs ++ t) (ht : t = [] ∨ Torn t)
    (hfits : ∀ c ∈ cs, c.Fits) :
    (replayData crc id i l fs).result = .ok (l.loaded crc id cs, decide (t = [])) ∧
      (replayData crc id i l fs).after =
        if t = [] then fs else fs.setLen i (encodeAll crc cs).length := by
  by_cases hnil : t = []
  · rw [hnil, List.append_nil] at hb
    rw [replayData_eq hb hfits, if_pos hnil, hnil]
    exact ⟨rfl, rfl⟩
  · have hrun := forRecordsOf_encodeAll crc id hfits ht
      { l with writer := { l.writer with offset := 0 } }
    rw [tornAt, if_neg hnil] at hrun
    rw [if_neg hnil, decide_eq_false hnil]
    subst hid hi
    unfold replayData
    constructor
    · show (Prog.bind Prog.get _ fs).result = _
      simp only [Prog.bind, Prog.get, hb, hrun, if_true]
      rfl
    · show (Prog.bind Prog.get _ fs).after = _
      simp only [Prog.bind, Prog.get, hb, hrun, if_true]
      rfl

/-- The active file comes last. -/
theorem replay_last {cs : List Command} {t : Bytes} (hb : fs.bytes l.writer.file = encodeAll crc cs ++ t)
    (ht : t = [] ∨ Torn t) (hfits : ∀ c ∈ cs, c.Fits) :
    (storeNames.replay crc [(l.writer.currentFileId, l.writer.file)] l fs).result =
        .ok (l.loaded crc l.writer.currentFileId cs) ∧
      (storeNames.replay crc [(l.writer.currentFileId, l.writer.file)] l fs).after =
        if t = [] then fs else fs.setLen l.writer.file (encodeAll crc cs).length := by
  obtain ⟨hres, hafter⟩ := replayData_active_eq rfl rfl hb ht hfits
  rw [← hafter]
  constructor
  · show (Prog.bind (storeNames.replayFile crc l _ _) _ fs).result = _
    simp only [Prog.bind, replayFile_active, hres]
    split <;> rfl
  · show (Prog.bind (storeNames.replayFile crc l _ _) _ fs).after = _
    simp only [Prog.bind, replayFile_active, hres]
    split <;> rfl

/-- The first hint of a file that does not fit. -/
theorem exists_first_misfit {cs : List Command} (h : ¬ ∀ c ∈ cs, c.IsSet → HintFits c) :
    ∃ pre c post, cs = pre ++ c :: post ∧ c.IsSet ∧ ¬ HintFits c ∧
      ∀ d ∈ pre, d.IsSet → HintFits d := by
  induction cs with
  | nil => exact absurd (by simp) h
  | cons c cs ih =>
    by_cases hc : c.IsSet → HintFits c
    · have hcs : ¬ ∀ c ∈ cs, c.IsSet → HintFits c := by
        intro hall
        refine h fun d hd => ?_
        rcases List.mem_cons.mp hd with rfl | hd
        · exact hc
        · exact hall d hd
      obtain ⟨pre, d, post, rfl, hset, hbad, hpre⟩ := ih hcs
      refine ⟨c :: pre, d, post, rfl, hset, hbad, fun x hx => ?_⟩
      rcases List.mem_cons.mp hx with rfl | hx
      · exact hc
      · exact hpre x hx
    · push Not at hc
      exact ⟨[], c, cs, rfl, hc.1, hc.2, by simp⟩

/-- A sealed file, with or without a hint. -/
theorem replayFile_sealed (hne : id ≠ l.writer.currentFileId)
    (hi : fs.lookup (.data id) = some i) (hfaith : FaithfulAt crc fs id)
    (hlen : (fs.bytes i).length < 2 ^ 64) {C : Fs FileName → Prop} (hC : C fs) :
    Triple (· = fs) (storeNames.replayFile crc l id i)
      (fun r fs' => (fs' = fs ∨ fs' = fs.unlink (.hint id) ∧
          ∀ hinted, replayed hinted (recordsOf crc (fs.bytes i)) = events (recordsOf crc (fs.bytes i))) ∧
        r.2 = true ∧ Sealed crc (fs.bytes i) ∧ l.Extends r.1 ∧
        Loads crc id (recordsOf crc (fs.bytes i))
          (replayed (fs.lookup (.hint id)).isSome (recordsOf crc (fs.bytes i))) l.index r.1.index)
      (fun _ _ => ¬ Sealed crc (fs.bytes i)) C := by
  refine Triple.get_bind ?_
  rintro s rfl
  cases hh : s.lookup (.hint id) with
  | none =>
    refine (replayData_sealed hne C).conseq (fun _ h => h) ?_ (fun _ _ h => h.2.2) (fun _ h => h)
    rintro r fs' ⟨rfl, h2, h3, h4, h5⟩
    exact ⟨Or.inl rfl, h2, h3, h4, by rw [Option.isSome_none, replayed_false]; exact h5⟩
  | some h =>
    simp only [hne, ne_eq, not_false_eq_true, if_true]
    obtain ⟨cs, hb, hhint, hfits⟩ := hfaith hh hi
    have hsealed : Sealed crc (s.bytes i) := ⟨cs, hb, hfits⟩
    have hrecs : recordsOf crc (s.bytes i) = cs := by
      rw [hb]
      exact recordsOf_sealed hfits
    rw [hb] at hlen
    rw [hhint, hrecs, Option.isSome_some]
    by_cases hall : ∀ c ∈ cs, c.IsSet → HintFits c
    · rw [forRecordsOf_hint crc id hall hlen]
      refine Triple.pure ?_
      rintro _ rfl
      refine ⟨Or.inl rfl, rfl, hsealed, ⟨rfl, rfl, rfl, placed_loadHints⟩, ?_⟩
      rw [replayed, if_pos ⟨rfl, hall⟩]
      exact loads_loadHints _ _
    · obtain ⟨pre, c, post, hcs, hset, hbad, hpre⟩ := exists_first_misfit hall
      obtain ⟨e, hstop⟩ := hint_stops crc id hcs
        (hfits c (by rw [hcs]; exact List.mem_append_right _ List.mem_cons_self)) hset hbad hpre hlen
        l.index
      rw [hstop]
      set l' : Loader := { l with index := loadHints crc id 0 pre l.index } with hl'
      -- the hint is removed and the data file replayed over the entries already loaded
      refine Triple.bind (Q := fun _ fs => fs = s.unlink (.hint id)) (Triple.call ?_ ?_) fun _ => ?_
      · rintro _ rfl; exact hC
      · rintro _ rfl; rfl
      · refine (replayData_sealed (l := l') hne C).conseq (fun _ h => h) ?_ ?_ (fun _ h => h)
        · rintro r fs' ⟨rfl, h2, -, h4, h5⟩
          have hext : l.Extends l' := ⟨rfl, rfl, rfl, placed_loadHints⟩
          have hsaid : ∀ hinted, replayed hinted cs = events cs := fun hinted => if_neg fun h => hall h.2
          refine ⟨Or.inr ⟨rfl, hsaid⟩, h2, hsealed, hext.trans h4, ?_⟩
          rw [Fs.bytes_unlink, hrecs] at h5
          rw [hsaid]
          exact ((loads_loadHints pre l.index).extend ⟨c :: post, hcs.symm⟩).after_hints
            ⟨c :: post, hcs.symm⟩ h5
        · intro _ _ h5 _
          exact h5.2.2 hsealed

end File

/-! ## All files -/

/-- The files in the order of their ids, of which the last one is the one with the highest id. -/
theorem toList_split {readers : Std.TreeMap ℕ Inode} {cur : ℕ} {file : Inode}
    (hcur : readers[cur]? = some file) (hmax : ∀ id i, readers[id]? = some i → id ≤ cur) :
    ∃ front, readers.toList = front ++ [(cur, file)] ∧
      (∀ f ∈ front, f.1 ≠ cur ∧ readers[f.1]? = some f.2) ∧
      front.Pairwise fun f g => f.1 ≠ g.1 := by
  have hmem : ∀ f, f ∈ readers.toList ↔ readers[f.1]? = some f.2 := fun f =>
    Std.TreeMap.mem_toList_iff_getElem?_eq_some
  obtain ⟨front, post, hsplit⟩ := List.append_of_mem ((hmem (cur, file)).mpr hcur)
  have hord := readers.ordered_keys_toList
  rw [hsplit] at hord
  obtain ⟨hfront, hrest, hcross⟩ := List.pairwise_append.mp hord
  have hpost : post = [] := by
    refine List.eq_nil_iff_forall_not_mem.mpr fun f hf => ?_
    have hlt : compare cur f.1 = .lt := (List.pairwise_cons.mp hrest).1 f hf
    have hf' : f ∈ readers.toList := by rw [hsplit]; simp [hf]
    have := hmax f.1 f.2 ((hmem f).mp hf')
    rw [Nat.compare_eq_lt] at hlt
    omega
  subst hpost
  refine ⟨front, hsplit, fun f hf => ?_, hfront.imp fun hlt he => ?_⟩
  · have hf' : f ∈ readers.toList := by rw [hsplit]; simp [hf]
    have hlt : compare f.1 cur = .lt := hcross f hf (cur, file) List.mem_cons_self
    rw [Nat.compare_eq_lt] at hlt
    exact ⟨by omega, (hmem f).mp hf'⟩
  · rw [Nat.compare_eq_lt] at hlt
    omega

/-- What a file says when it is replayed as a sealed one. -/
def sealedSays (fs : Fs FileName) (f : ℕ × Inode) : List (Bytes × Option Bytes) :=
  replayed (fs.lookup (.hint f.1)).isSome (recordsOf crc (fs.bytes f.2))

/-- What the replay has done after the sealed files `pre` of the directory `fs₂`. -/
structure Replaying (fs₀ fs₂ : Fs FileName) (l₀ : Loader) (pre : List (ℕ × Inode)) (l : Loader)
    (fs : Fs FileName) : Prop where
  opening : Opening fs₀ fs
  keeps : ∀ {n i}, fs.lookup n = some i → fs₂.lookup n = some i
  others : ∀ n, (∀ id, n ≠ .hint id) → fs.lookup n = fs₂.lookup n
  hint : ∀ id, (∀ i, (id, i) ∉ pre) → fs.lookup (.hint id) = fs₂.lookup (.hint id)
  bytes : fs.bytes = fs₂.bytes
  synced : fs.synced = fs₂.synced
  loader : l₀.Extends l
  sealed : ∀ f ∈ pre, Sealed crc (fs₂.bytes f.2)
  /-- Replayed again, a file would say the same. -/
  kept : ∀ f ∈ pre, replayed (fs.lookup (.hint f.1)).isSome (recordsOf crc (fs₂.bytes f.2)) =
    sealedSays crc fs₂ f
  represents : Represents crc (fun i => recordsOf crc (fs₂.bytes i)) (l₀.readers[·]?)
    (pre.flatMap (sealedSays crc fs₂)) l.index

/-- What the replay of the sealed files `front` and the active file of the directory `fs₂` has
done. -/
structure ReplayDone (fs₀ fs₂ : Fs FileName) (l₀ : Loader) (front : List (ℕ × Inode)) (l : Loader)
    (fs : Fs FileName) : Prop where
  keeps : ∀ {n i}, fs.lookup n = some i → fs₂.lookup n = some i
  others : ∀ n, (∀ id, n ≠ .hint id) → fs.lookup n = fs₂.lookup n
  bytes : ∀ i, i ≠ l₀.writer.file → fs.bytes i = fs₂.bytes i
  synced : ∀ i, i ≠ l₀.writer.file → fs.synced i = fs₂.synced i
  loader : l₀.Extends l
  sealed : ∀ f ∈ front, Sealed crc (fs₂.bytes f.2)
  kept : ∀ f ∈ front, replayed (fs.lookup (.hint f.1)).isSome (recordsOf crc (fs₂.bytes f.2)) =
    sealedSays crc fs₂ f
  readable : Readable crc (fs₂.bytes l₀.writer.file)
  active : fs.bytes l₀.writer.file = encodeAll crc (recordsOf crc (fs₂.bytes l₀.writer.file))
  active_synced : fs.synced l₀.writer.file = min (fs₂.synced l₀.writer.file)
    (fs.bytes l₀.writer.file).length ∨ fs.synced l₀.writer.file = fs₂.synced l₀.writer.file
  offset : l.writer.offset = (fs.bytes l₀.writer.file).length
  represents : Represents crc (fun i => recordsOf crc (fs₂.bytes i)) (l₀.readers[·]?)
    (front.flatMap (sealedSays crc fs₂) ++ events (recordsOf crc (fs₂.bytes l₀.writer.file))) l.index

section Replay

variable {crc} {fs₀ fs₂ fs : Fs FileName} {l₀ l : Loader} {pre post : List (ℕ × Inode)}

/-- One sealed file of the loop. -/
theorem Replaying.file {f : ℕ × Inode} (hne : f.1 ≠ l₀.writer.currentFileId)
    (hf : l₀.readers[f.1]? = some f.2) (hdir : fs₂.lookup (.data f.1) = some f.2)
    (hnew : ∀ i, (f.1, i) ∉ pre) (hfaith : FaithfulAt crc fs₂ f.1)
    (hlen : (fs₂.bytes f.2).length < 2 ^ 64) :
    Triple (Replaying crc fs₀ fs₂ l₀ pre l) (storeNames.replayFile crc l f.1 f.2)
      (fun r fs => r.2 = true ∧ Replaying crc fs₀ fs₂ l₀ (pre ++ [f]) r.1 fs)
      (fun _ _ => ¬ Sealed crc (fs₂.bytes f.2)) (Opening fs₀) := by
  refine Triple.of_eq fun s h => ?_
  have hlook : s.lookup (.hint f.1) = fs₂.lookup (.hint f.1) := h.hint f.1 hnew
  have hfaith' : FaithfulAt crc s f.1 := by
    intro hh i hhint hdata
    rw [h.bytes]
    exact hfaith (h.keeps hhint) (h.keeps hdata)
  have hdir' : s.lookup (.data f.1) = some f.2 := by rw [h.others _ (by simp)]; exact hdir
  refine (replayFile_sealed (by rw [h.loader.cur]; exact hne) hdir' hfaith'
    (by rw [h.bytes]; exact hlen) h.opening).conseq (fun _ h => h) ?_ ?_ (fun _ h => h)
  · rintro r fs' ⟨hfs, hmore, hsealed, hext, hl⟩
    rw [h.bytes] at hsealed hl
    rw [hlook] at hl
    refine ⟨hmore, ?_⟩
    have hrep := h.represents.loads hf hl
    have hseals : ∀ g ∈ pre ++ [f], Sealed crc (fs₂.bytes g.2) := by
      intro g hg
      rcases List.mem_append.mp hg with hg | hg
      · exact h.sealed g hg
      · rw [List.mem_singleton.mp hg]; exact hsealed
    have hrep' : Represents crc (fun i => recordsOf crc (fs₂.bytes i)) (l₀.readers[·]?)
        ((pre ++ [f]).flatMap (sealedSays crc fs₂)) r.1.index := by
      rw [List.flatMap_append, List.flatMap_singleton]
      exact hrep
    rcases hfs with rfl | ⟨rfl, hsaid⟩
    · refine ⟨h.opening, h.keeps, h.others,
        fun id hid => h.hint id fun i hi => hid i (List.mem_append_left _ hi), h.bytes, h.synced,
        h.loader.trans hext, hseals, fun g hg => ?_, hrep'⟩
      rcases List.mem_append.mp hg with hg | hg
      · exact h.kept g hg
      · rw [List.mem_singleton.mp hg, hlook]
        rfl
    · refine ⟨h.opening.unlink (by simp) (by simp), ?_, ?_, ?_, h.bytes, h.synced,
        h.loader.trans hext, hseals, fun g hg => ?_, hrep'⟩
      · intro n i hn
        by_cases hnf : n = .hint f.1
        · rw [hnf, Fs.lookup_unlink_self] at hn; cases hn
        · rw [Fs.lookup_unlink_ne s hnf] at hn; exact h.keeps hn
      · intro n hn
        rw [Fs.lookup_unlink_ne s (hn f.1)]
        exact h.others n hn
      · intro id hid
        rw [Fs.lookup_unlink_ne s]
        · exact h.hint id fun i hi => hid i (List.mem_append_left _ hi)
        · intro he
          exact hid f.2 (by rw [FileName.hint.inj he]; simp)
      · rcases List.mem_append.mp hg with hg | hg
        · have hne : g.1 ≠ f.1 := by
            intro he
            exact hnew g.2 (by rw [← he]; exact hg)
          rw [Fs.lookup_unlink_ne s (by simpa using hne)]
          exact h.kept g hg
        · rw [List.mem_singleton.mp hg, Fs.lookup_unlink_self, sealedSays]
          rw [h.bytes] at hsaid
          rw [hsaid, hsaid]
  · intro _ _ hns
    rwa [h.bytes] at hns

/-- The active file is the last one, and the loop ends with it. -/
theorem Replaying.last (hcur : l₀.readers[l₀.writer.currentFileId]? = some l₀.writer.file) :
    Triple (Replaying crc fs₀ fs₂ l₀ pre l)
      (storeNames.replay crc [(l₀.writer.currentFileId, l₀.writer.file)] l)
      (ReplayDone crc fs₀ fs₂ l₀ pre)
      (fun _ _ => ¬ Readable crc (fs₂.bytes l₀.writer.file)) (Opening fs₀) := by
  refine Triple.of_eq fun s h => ?_
  have hfile : Triple (· = s) (replayData crc l₀.writer.currentFileId l₀.writer.file l)
      (fun r fs => ReplayDone crc fs₀ fs₂ l₀ pre r.1 fs)
      (fun _ _ => ¬ Readable crc (fs₂.bytes l₀.writer.file)) (Opening fs₀) := by
    refine (replayData_active h.loader.cur.symm h.loader.file.symm h.opening).conseq
      (fun _ h => h) ?_ ?_ (fun _ h => h)
    · rintro r fs' ⟨hread, hext, hoff, hfs, hl⟩
      rw [h.bytes] at hread hoff hfs hl
      have hrep := h.represents.loads hcur hl
      rcases hfs with ⟨rfl, hb⟩ | rfl
      · refine ⟨h.keeps, h.others, fun i _ => by rw [h.bytes], fun i _ => by rw [h.synced],
          h.loader.trans hext, h.sealed, h.kept, hread, by rw [h.bytes]; exact hb, Or.inr (by rw [h.synced]),
          ?_, hrep⟩
        rw [h.bytes, hoff, ← hb]
      · have htake := hread.take
        refine ⟨h.keeps, h.others, fun i hi => ?_, fun i hi => ?_, h.loader.trans hext,
          h.sealed, h.kept, hread, ?_, Or.inl ?_, ?_, hrep⟩
        · rw [Fs.bytes_setLen_ne hi, h.bytes]
        · rw [Fs.synced_setLen_ne hi, h.synced]
        · rw [Fs.bytes_setLen_self, h.bytes, htake]
        · rw [Fs.synced_setLen_self, Fs.bytes_setLen_self, h.bytes, htake, h.synced]
        · rw [Fs.bytes_setLen_self, h.bytes, htake, hoff]
    · intro _ _ hns
      rw [h.bytes] at hns
      exact hns.2.2
  refine Triple.bind (Q := fun r fs => ReplayDone crc fs₀ fs₂ l₀ pre r.1 fs) ?_ ?_
  · intro s' hs'
    subst hs'
    rw [replayFile_active h.loader.cur.symm]
    exact hfile _ rfl
  rintro ⟨l', more⟩
  cases more
  · exact Triple.pure fun _ h => h
  · exact Triple.pure fun _ h => h

/-- The loop over the files. -/
theorem replay_spec (l₀ : Loader) (pre : List (ℕ × Inode)) (l : Loader)
    (hcur : l₀.readers[l₀.writer.currentFileId]? = some l₀.writer.file)
    (hfaith : ∀ f ∈ post, FaithfulAt crc fs₂ f.1)
    (hfiles : ∀ f ∈ post, f.1 ≠ l₀.writer.currentFileId ∧ l₀.readers[f.1]? = some f.2 ∧
      fs₂.lookup (.data f.1) = some f.2 ∧ (fs₂.bytes f.2).length < 2 ^ 64)
    (hnodup : (pre ++ post).Pairwise fun f g => f.1 ≠ g.1) :
    Triple (Replaying crc fs₀ fs₂ l₀ pre l)
      (storeNames.replay crc (post ++ [(l₀.writer.currentFileId, l₀.writer.file)]) l)
      (ReplayDone crc fs₀ fs₂ l₀ (pre ++ post))
      (fun _ _ => ¬ ((∀ f ∈ post, Sealed crc (fs₂.bytes f.2)) ∧
        Readable crc (fs₂.bytes l₀.writer.file))) (Opening fs₀) := by
  induction post generalizing pre l with
  | nil =>
    rw [List.append_nil]
    exact (Replaying.last hcur).conseq (fun _ h => h) (fun _ _ h => h)
      (fun _ _ h hall => h hall.2) (fun _ h => h)
  | cons f post ih =>
    obtain ⟨hne, hf, hdir, hlen⟩ := hfiles f List.mem_cons_self
    have hnew : ∀ i, (f.1, i) ∉ pre := fun i hi =>
      (List.pairwise_append.mp hnodup).2.2 (f.1, i) hi f List.mem_cons_self rfl
    rw [List.cons_append]
    refine Triple.bind ((Replaying.file hne hf hdir hnew
      (hfaith f List.mem_cons_self) hlen).conseq (fun _ h => h)
      (fun _ _ h => h) (fun _ _ h hall => h (hall.1 f List.mem_cons_self)) (fun _ h => h)) ?_
    rintro ⟨l', more⟩ s ⟨hmore, h⟩
    obtain rfl : more = true := hmore
    have hassoc : pre ++ [f] ++ post = pre ++ f :: post := by simp
    have hrest := ih (pre ++ [f]) l' (fun g hg => hfaith g (List.mem_cons_of_mem _ hg))
      (fun g hg => hfiles g (List.mem_cons_of_mem _ hg)) (by rw [hassoc]; exact hnodup)
    rw [hassoc] at hrest
    exact (hrest.conseq (fun _ h => h) (fun _ _ h => h)
      (fun _ _ h hall => h ⟨fun g hg => hall.1 g (List.mem_cons_of_mem _ hg), hall.2⟩)
      (fun _ h => h)) s h

end Replay

end Bitcask
