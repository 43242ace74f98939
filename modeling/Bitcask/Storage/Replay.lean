import Bitcask.Storage.Open
import Bitcask.Storage.Records

/-!
# What replaying a file does to the index

1. `Loads`: replaying a file of records leaves every key it does not mention alone, and points a
   key it sets at the last record that sets it.
2. The data path loads all records (`foldRecords_data`), the hint path the `Set` records only
   (`foldRecords_hint`).
3. A hint record whose body length does not fit its `u32` field does not decode, so a hint file
   with one is replayed only up to it (`hint_stops`).
4. `Represents`: the index points every key at its value in a log; it survives a file that is
   loaded (`Represents.loads`).
-/

namespace Bitcask

open LittleEndian FileSystem SegmentedLog

variable (crc : Bytes → UInt32)

/-! ## Loading records -/

/-- The index after one record at `off`. -/
def loadCommand (fileId off : ℕ) (index : Index) : Command → Index
  | c@(.set ts key _) => index.insert key ⟨fileId, ts, off, (c.serialize crc).length⟩
  | .rm _ key => index.remove key

/-- The index after the records of a file, the first of them at `off`. -/
def loadAll (fileId : ℕ) : ℕ → List Command → Index → Index
  | _, [], index => index
  | off, c :: cs, index =>
    loadAll fileId (off + (c.serialize crc).length) cs (loadCommand crc fileId off index c)

/-- The index after the hints of a file: its removes are not seen. -/
def loadHints (fileId : ℕ) : ℕ → List Command → Index → Index
  | _, [], index => index
  | off, c@(.set _ _ _) :: cs, index =>
    loadHints fileId (off + (c.serialize crc).length) cs (loadCommand crc fileId off index c)
  | off, c@(.rm _ _) :: cs, index => loadHints fileId (off + (c.serialize crc).length) cs index

instance : DecidablePred Command.IsSet := fun c =>
  match c with
  | .set _ _ _ => isTrue trivial
  | .rm _ _ => isFalse id

/-- The records of a file that a hint file lists. -/
def setsOf (cs : List Command) : List Command := cs.filter fun c => c.IsSet

/-- What a file, replayed as the events `es`, does to the index. -/
def Loads (fileId : ℕ) (cs : List Command) (es : List (Bytes × Option Bytes))
    (index index' : Index) : Prop :=
  ∀ k, (lastOf k es = none → index'.get k = index.get k) ∧
    (lastOf k es = some none → index'.get k = none) ∧
    ∀ v, lastOf k es = some (some v) → ∃ e, index'.get k = some e ∧ e.fileId = fileId ∧
      At crc cs e.offset (.set e.ts k v) ∧ e.len = ((Command.set e.ts k v).serialize crc).length

section Loading

variable {crc} {fileId off : ℕ} {cs : List Command} {index index' : Index}

theorem loadAll_append (as bs : List Command) :
    loadAll crc fileId off (as ++ bs) index =
      loadAll crc fileId (off + (encodeAll crc as).length) bs (loadAll crc fileId off as index) := by
  induction as generalizing off index with
  | nil => simp [loadAll]
  | cons a as ih => simp [loadAll, ih, Nat.add_assoc]

theorem loadHints_append (as bs : List Command) :
    loadHints crc fileId off (as ++ bs) index =
      loadHints crc fileId (off + (encodeAll crc as).length) bs
        (loadHints crc fileId off as index) := by
  induction as generalizing off index with
  | nil => simp [loadHints]
  | cons a as ih => cases a <;> simp [loadHints, ih, Nat.add_assoc]

theorem loads_nil : Loads crc fileId cs [] index index :=
  fun _ => ⟨fun _ => rfl, fun h => by simp at h, fun _ h => by simp at h⟩

/-- One more record at the end of the file. -/
theorem Loads.snoc {es : List (Bytes × Option Bytes)} (h : Loads crc fileId cs es index index')
    (c : Command) :
    Loads crc fileId (cs ++ [c]) (es ++ [event c]) index
      (loadCommand crc fileId (encodeAll crc cs).length index' c) := by
  intro k
  obtain ⟨hnone, hrm, hset⟩ := h k
  by_cases hk : c.getKey = k
  · have hlast : lastOf k (es ++ [event c]) = some c.getValue :=
      lastOf_append_of_some (hk ▸ lastOf_singleton_self _ _)
    rw [hlast]
    refine ⟨fun hv => by simp at hv, fun hv => ?_, fun v hv => ?_⟩
    · cases c with
      | set ts key value => simp [Command.getValue] at hv
      | rm ts key =>
        obtain rfl : key = k := hk
        exact Index.get_remove_self ..
    · cases c with
      | rm ts key => simp [Command.getValue] at hv
      | set ts key value =>
        obtain rfl : key = k := hk
        obtain rfl : value = v := by simpa [Command.getValue] using hv
        exact ⟨_, Index.get_insert_self .., rfl, At.last cs _, rfl⟩
  · have hlast : lastOf k (es ++ [event c]) = lastOf k es :=
      lastOf_append_of_none (lastOf_singleton_ne hk _)
    have hget : (loadCommand crc fileId (encodeAll crc cs).length index' c).get k = index'.get k := by
      cases c with
      | set ts key value => exact Index.get_insert_ne (Ne.symm hk)
      | rm ts key => exact Index.get_remove_ne (Ne.symm hk)
    rw [hlast, hget]
    refine ⟨hnone, hrm, fun v hv => ?_⟩
    obtain ⟨e, he, hid, hat, hlen⟩ := hset v hv
    exact ⟨e, he, hid, hat.append [c], hlen⟩

theorem Loads.extend {es : List (Bytes × Option Bytes)} {ds : List Command}
    (h : Loads crc fileId cs es index index') (hp : cs <+: ds) : Loads crc fileId ds es index index' := by
  obtain ⟨t, rfl⟩ := hp
  intro k
  obtain ⟨hnone, hrm, hset⟩ := h k
  refine ⟨hnone, hrm, fun v hv => ?_⟩
  obtain ⟨e, he, hid, hat, hlen⟩ := hset v hv
  exact ⟨e, he, hid, hat.append t, hlen⟩

theorem loads_loadAll (cs : List Command) (index : Index) :
    Loads crc fileId cs (events cs) index (loadAll crc fileId 0 cs index) := by
  induction cs using List.reverseRecOn with
  | nil => exact loads_nil
  | append_singleton cs c ih =>
    rw [loadAll_append, Nat.zero_add, events_append]
    exact ih.snoc c

theorem loads_loadHints (cs : List Command) (index : Index) :
    Loads crc fileId cs (events (setsOf cs)) index (loadHints crc fileId 0 cs index) := by
  induction cs using List.reverseRecOn with
  | nil => exact loads_nil
  | append_singleton cs c ih =>
    rw [loadHints_append, Nat.zero_add, setsOf, List.filter_append, events_append]
    cases c with
    | set ts key value => exact ih.snoc (.set ts key value)
    | rm ts key =>
      have hf : List.filter (fun c => decide (Command.IsSet c)) [Command.rm ts key] = [] := rfl
      rw [hf, events_nil, List.append_nil]
      exact ih.extend (List.prefix_append ..)

/-- A file that is loaded after some of its own hints ends up as if loaded alone. -/
theorem Loads.after_hints {index'' : Index} {pre : List Command}
    (h1 : Loads crc fileId cs (events (setsOf pre)) index index') (hpre : pre <+: cs)
    (h2 : Loads crc fileId cs (events cs) index' index'') : Loads crc fileId cs (events cs) index index'' := by
  intro k
  obtain ⟨hnone, hrm, hset⟩ := h2 k
  refine ⟨fun hk => (hnone hk).trans ((h1 k).1 ?_), hrm, hset⟩
  rw [lastOf_eq_none_iff] at hk ⊢
  intro e he
  obtain ⟨c, hc, rfl⟩ := List.mem_map.mp he
  exact hk _ (List.mem_map_of_mem (hpre.subset (List.mem_of_mem_filter hc)))

theorem placed_loadAll (h : index.Placed) : (loadAll crc fileId off cs index).Placed := by
  induction cs generalizing off index with
  | nil => exact h
  | cons c cs ih =>
    cases c with
    | set ts key value => exact ih h.insert
    | rm ts key => exact ih h.remove

theorem placed_loadHints (h : index.Placed) : (loadHints crc fileId off cs index).Placed := by
  induction cs generalizing off index with
  | nil => exact h
  | cons c cs ih =>
    cases c with
    | set ts key value => exact ih h.insert
    | rm ts key => exact ih h

end Loading

/-! ## The data path -/

/-- The bytes of the removes of a file, which the replay counts as stale. -/
def removedBytes (cs : List Command) : ℕ :=
  (cs.map fun c => if c.IsSet then 0 else (c.serialize crc).length).sum

section DataPath

variable (fileId : ℕ)

theorem dataRecord_serialize {c : Command} (hc : c.Fits) (l : Loader) (p : ℕ) :
    dataRecord crc fileId l p (c.serialize crc) = .ok { l with
      index := loadCommand crc fileId p l.index c
      writer := { l.writer with
        offset := l.writer.offset + (c.serialize crc).length
        staleBytesCount := l.writer.staleBytesCount + removedBytes crc [c] } } := by
  have hd := Command.deserialize_serialize crc hc []
  rw [List.append_nil] at hd
  unfold dataRecord
  rw [hd]
  cases c <;> simp [loadCommand, removedBytes, Command.IsSet, bind, Except.bind, pure, Except.pure]

theorem foldRecords_data {cs : List Command} (hfits : ∀ c ∈ cs, c.Fits) (p : ℕ) (l : Loader) :
    foldRecords (dataRecord crc fileId) p (cs.map (Command.serialize crc)) l = .ok { l with
      index := loadAll crc fileId p cs l.index
      writer := { l.writer with
        offset := l.writer.offset + (encodeAll crc cs).length
        staleBytesCount := l.writer.staleBytesCount + removedBytes crc cs } } := by
  induction cs generalizing p l with
  | nil => rfl
  | cons c cs ih =>
    refine bind_eq_ok.mpr ⟨_, dataRecord_serialize crc fileId (hfits c List.mem_cons_self) l p, ?_⟩
    rw [ih fun d hd => hfits d (List.mem_cons_of_mem _ hd)]
    simp [loadAll, removedBytes, Nat.add_assoc]

theorem forRecordsOf_encodeAll {cs : List Command} (hfits : ∀ c ∈ cs, c.Fits) {t : Bytes}
    (ht : t = [] ∨ Torn t) (l : Loader) :
    forRecordsOf (dataRecord crc fileId) (encodeAll crc cs ++ t) l = .done { l with
      index := loadAll crc fileId 0 cs l.index
      writer := { l.writer with
        offset := l.writer.offset + (encodeAll crc cs).length
        staleBytesCount := l.writer.staleBytesCount + removedBytes crc cs } }
      (tornAt (encodeAll crc cs).length t) := by
  rw [encodeAll_eq_flatten]
  have hrun := forRecordsOf_done (isFrame_of_mem crc hfits) ht
    (foldRecords_data crc fileId hfits 0 l)
  rw [hrun, encodeAll_eq_flatten]

variable {crc fileId}

/-- A frame that decodes has no bytes beyond the record. -/
theorem IsFrame.eq_serialize {b : Bytes} (hb : IsFrame b) {c : Command} {n : ℕ}
    (hd : Command.deserialize crc b = .ok (c, n)) : c.Fits ∧ b = c.serialize crc := by
  obtain ⟨hfit, hn, hle, htake⟩ := (Command.deserialize_eq_ok crc).mp hd
  have hlen : b.length = n := by
    have hbl := Command.bodyLen_serialize crc hfit (b.drop n)
    rw [← htake, List.take_append_drop] at hbl
    rw [hb.2, hbl, hn, Command.length_serialize]
  exact ⟨hfit, by rw [← htake, ← hlen, List.take_length]⟩

/-- A file the loop walks to its end is a sequence of records with at most a torn tail. -/
theorem records_of_fold {bs : List Bytes} {p : ℕ} {l l' : Loader}
    (hbs : ∀ b ∈ bs, IsFrame b) (h : foldRecords (dataRecord crc fileId) p bs l = .ok l') :
    ∃ cs : List Command, bs = cs.map (Command.serialize crc) ∧ ∀ c ∈ cs, c.Fits := by
  induction bs generalizing p l with
  | nil => exact ⟨[], rfl, by simp⟩
  | cons b bs ih =>
    obtain ⟨l1, h1, h2⟩ := bind_eq_ok.mp h
    obtain ⟨cs, hcs, hfits⟩ := ih (fun x hx => hbs x (List.mem_cons_of_mem _ hx)) h2
    obtain ⟨⟨c, n⟩, hd, -⟩ := bind_eq_ok.mp h1
    obtain ⟨hfit, hb⟩ := (hbs b List.mem_cons_self).eq_serialize hd
    refine ⟨c :: cs, ?_, ?_⟩
    · rw [List.map_cons, ← hcs, ← hb]
    · intro d hdm
      rcases List.mem_cons.mp hdm with rfl | hdm
      · exact hfit
      · exact hfits d hdm

/-- A file the loop walks to its end is `encodeAll` of some records and at most a torn tail. -/
theorem forRecordsOf_data {b : Bytes} {l l' : Loader} {torn : Option ℕ}
    (h : forRecordsOf (dataRecord crc fileId) b l = .done l' torn) :
    ∃ cs t, b = encodeAll crc cs ++ t ∧ (t = [] ∨ Torn t) ∧ ∀ c ∈ cs, c.Fits := by
  obtain ⟨bs, rest, hb, hbs, hrest, hfold, -⟩ := forRecordsOf_inv h
  obtain ⟨cs, rfl, hfits⟩ := records_of_fold hbs hfold
  exact ⟨cs, rest, by rw [hb, encodeAll_eq_flatten], hrest, hfits⟩

end DataPath

/-! ## The hint path -/

/-- The hint record of the command has a body length that fits its field. -/
def HintFits (c : Command) : Prop := IndexValue.encodedBodyLen c.getKey < 2 ^ 32

instance : DecidablePred HintFits := fun c =>
  inferInstanceAs (Decidable (IndexValue.encodedBodyLen c.getKey < 2 ^ 32))

/-- The hint records of a file, one by one. -/
def hintRecords : ℕ → List Command → List Bytes
  | _, [] => []
  | off, c@(.set ts key _) :: cs =>
    (⟨0, ts, off, (c.serialize crc).length⟩ : IndexValue).serialize crc key ::
      hintRecords (off + (c.serialize crc).length) cs
  | off, c@(.rm _ _) :: cs => hintRecords (off + (c.serialize crc).length) cs

section HintPath

variable {cs : List Command}

theorem flatten_hintRecords (off : ℕ) (cs : List Command) :
    (hintRecords crc off cs).flatten = hintsOf crc off cs := by
  induction cs generalizing off with
  | nil => rfl
  | cons c cs ih => cases c <;> simp [hintRecords, hintsOf, hintOf, ih]

theorem isFrame_hintRecords (off : ℕ) (hfit : ∀ c ∈ cs, c.IsSet → HintFits c) :
    ∀ b ∈ hintRecords crc off cs, IsFrame b := by
  induction cs generalizing off with
  | nil => simp [hintRecords]
  | cons c cs ih =>
    have ih' := fun off => ih off fun d hd => hfit d (List.mem_cons_of_mem _ hd)
    cases c with
    | rm ts key => exact ih' _
    | set ts key value =>
      intro b hb
      rcases List.mem_cons.mp hb with rfl | hb
      · exact IsFrame.hint crc (hfit (.set ts key value) List.mem_cons_self trivial)
      · exact ih' _ b hb

variable (fileId : ℕ)

theorem hintRecord_serialize {key : Bytes} {iv : IndexValue} (hiv : iv.Fits)
    (hk : IndexValue.encodedBodyLen key < 2 ^ 32) (index : Index) (p : ℕ) :
    hintRecord crc fileId index p (iv.serialize crc key) =
      .ok (index.insert key { iv with fileId := fileId }) := by
  have hd := IndexValue.deserialize_serialize crc hiv hk fileId []
  rw [List.append_nil] at hd
  unfold hintRecord
  rw [hd]
  rfl

/-- Hints that decode load the `Set` records of the file. -/
theorem foldRecords_hint (off p : ℕ) (hfit : ∀ c ∈ cs, c.IsSet → HintFits c)
    (hlen : off + (encodeAll crc cs).length < 2 ^ 64) (index : Index) :
    foldRecords (hintRecord crc fileId) p (hintRecords crc off cs) index =
      .ok (loadHints crc fileId off cs index) := by
  induction cs generalizing off p index with
  | nil => rfl
  | cons c cs ih =>
    rw [encodeAll_cons, List.length_append] at hlen
    have ih' := fun p index => ih (off + (c.serialize crc).length) p
      (fun d hd => hfit d (List.mem_cons_of_mem _ hd)) (by omega) index
    cases c with
    | rm ts key => exact ih' _ _
    | set ts key value =>
      refine bind_eq_ok.mpr ⟨_, hintRecord_serialize crc fileId
        ⟨by simp only; omega, by simp only; omega⟩
        (hfit (.set ts key value) List.mem_cons_self trivial) index p, ?_⟩
      exact ih' _ _

theorem forRecordsOf_hint (hfit : ∀ c ∈ cs, c.IsSet → HintFits c)
    (hlen : (encodeAll crc cs).length < 2 ^ 64) (index : Index) :
    forRecordsOf (hintRecord crc fileId) (hintsOf crc 0 cs) index =
      .done (loadHints crc fileId 0 cs index) none := by
  have hrun := forRecordsOf_done (isFrame_hintRecords crc 0 hfit) (Or.inl rfl)
    (foldRecords_hint crc fileId 0 0 hfit (by rwa [Nat.zero_add]) index)
  rwa [List.append_nil, flatten_hintRecords] at hrun

/-- No frame shorter than the fixed part of a hint record decodes. -/
theorem hintRecord_short {b : Bytes} (hb : b.length < 36) (index : Index) (p : ℕ) :
    ∃ e, hintRecord crc fileId index p b = .error e := by
  unfold hintRecord
  cases hd : IndexValue.deserialize crc b fileId with
  | error e => exact ⟨e, rfl⟩
  | ok x =>
    obtain ⟨key, iv, n⟩ := x
    obtain ⟨-, -, -, hn, hle, -⟩ := (IndexValue.deserialize_eq_ok crc).mp hd
    rw [IndexValue.length_serialize] at hn
    unfold headerLen IndexValue.encodedBodyLen IndexValue.keyLenLen IndexValue.indexValueLen at hn
    omega

/-- A hint record that does not fit announces a body shorter than a hint. -/
theorem hint_misframed {c : Command} (hc : c.Fits) (hset : c.IsSet) (hbad : ¬ HintFits c)
    (off : ℕ) (rest : Bytes) :
    ∃ f rest', hintOf crc off c ++ rest = f ++ rest' ∧ IsFrame f ∧ f.length < 36 := by
  cases c with
  | rm ts key => exact hset.elim
  | set ts key value =>
    set iv : IndexValue := ⟨0, ts, off, ((Command.set ts key value).serialize crc).length⟩ with hiv
    have hkey : key.length + 28 < 2 ^ 32 + 11 ∧ 2 ^ 32 ≤ key.length + 28 := by
      simp only [Command.Fits, Command.encodedBodyLen] at hc
      simp only [HintFits, Command.getKey, IndexValue.encodedBodyLen, IndexValue.keyLenLen,
        IndexValue.indexValueLen, not_lt] at hbad
      omega
    have hlen : (iv.serialize crc key).length = 8 + (key.length + 28) := by
      rw [IndexValue.length_serialize]
      simp only [headerLen, IndexValue.encodedBodyLen, IndexValue.keyLenLen,
        IndexValue.indexValueLen]
      omega
    -- the length field holds the body length modulo `2 ^ 32`
    have hbody : Command.bodyLen ((iv.serialize crc key).take headerLen) =
        (key.length + 28) % 2 ^ 32 := by
      have hs : slice ((iv.serialize crc key).take headerLen) crcLen headerLen =
          toLe 4 (IndexValue.encodedBodyLen key) := by
        unfold IndexValue.serialize IndexValue.checked slice crcLen headerLen
        simp [List.take_append]
      rw [Command.bodyLen, hs, ofLe_toLe]
      simp only [IndexValue.encodedBodyLen, IndexValue.keyLenLen, IndexValue.indexValueLen]
      norm_num
      congr 1
      omega
    set n := 8 + (key.length + 28) % 2 ^ 32 with hn
    have hnlt : n < 36 := by omega
    refine ⟨(iv.serialize crc key).take n, (iv.serialize crc key).drop n ++ rest, ?_, ?_, ?_⟩
    · rw [← List.append_assoc, List.take_append_drop]; rfl
    · have htl : ((iv.serialize crc key).take n).length = n := by
        rw [List.length_take, hlen]; omega
      unfold IsFrame
      rw [htl, List.take_take, show min headerLen n = headerLen by unfold headerLen; omega, hbody]
      unfold headerLen
      omega
    · rw [List.length_take]; omega

/-- A hint file with a hint that does not fit is replayed up to that hint. -/
theorem hint_stops {pre post : List Command} {c : Command} (hcs : cs = pre ++ c :: post)
    (hc : c.Fits) (hset : c.IsSet) (hbad : ¬ HintFits c)
    (hfit : ∀ d ∈ pre, d.IsSet → HintFits d) (hlen : (encodeAll crc cs).length < 2 ^ 64)
    (index : Index) : ∃ e, forRecordsOf (hintRecord crc fileId) (hintsOf crc 0 cs) index =
      .stop (loadHints crc fileId 0 pre index) e := by
  subst hcs
  rw [hintsOf_append, Nat.zero_add]
  obtain ⟨f, rest', hf, hframe, hshort⟩ := hint_misframed crc hc hset hbad
    (encodeAll crc pre).length (hintsOf crc ((encodeAll crc pre).length + (c.serialize crc).length) post)
  have hfold := foldRecords_hint crc fileId 0 0 hfit
    (by rw [encodeAll_append, List.length_append] at hlen; omega) index
  obtain ⟨e, he⟩ := hintRecord_short crc fileId hshort
    (loadHints crc fileId 0 pre index) (hintsOf crc 0 pre).length
  refine ⟨e, ?_⟩
  rw [hintsOf, hf]
  have hframes := isFrame_hintRecords crc 0 hfit
  rw [← flatten_hintRecords]
  exact forRecordsOf_stop hframes hframe _ hfold (by rw [flatten_hintRecords]; exact he)

end HintPath

/-! ## The index as a log -/

/-- The index points every key that has a value after the events `evs` at a record with that
value, and has no entry for the other keys. -/
def Represents (recs : Inode → List Command) (rd : ℕ → Option Inode)
    (evs : List (Bytes × Option Bytes)) (index : Index) : Prop :=
  ∀ k, match value k evs with
    | none => index.get k = none
    | some v => ∃ e i, index.get k = some e ∧ rd e.fileId = some i ∧
        At crc (recs i) e.offset (.set e.ts k v) ∧
        e.len = ((Command.set e.ts k v).serialize crc).length

section Represents

variable {crc} {recs : Inode → List Command} {rd : ℕ → Option Inode}
  {evs es : List (Bytes × Option Bytes)} {index index' : Index}

theorem represents_empty : Represents crc recs rd [] Index.empty := fun k => Index.get_empty k

theorem Represents.of_none (h : Represents crc recs rd evs index) {k : Bytes}
    (hk : value k evs = none) : index.get k = none := by
  have := h k
  rwa [hk] at this

theorem Represents.of_some (h : Represents crc recs rd evs index) {k v : Bytes}
    (hk : value k evs = some v) : ∃ e i, index.get k = some e ∧ rd e.fileId = some i ∧
      At crc (recs i) e.offset (.set e.ts k v) ∧
      e.len = ((Command.set e.ts k v).serialize crc).length := by
  have := h k
  rwa [hk] at this

/-- An entry is the position of the value of its key. -/
theorem Represents.entry (h : Represents crc recs rd evs index) {k : Bytes} {e : IndexValue}
    (he : index.get k = some e) : ∃ i v, value k evs = some v ∧ rd e.fileId = some i ∧
      At crc (recs i) e.offset (.set e.ts k v) ∧
      e.len = ((Command.set e.ts k v).serialize crc).length := by
  cases hv : value k evs with
  | none => rw [h.of_none hv] at he; cases he
  | some v =>
    obtain ⟨e', i, he', hi, hat, hlen⟩ := h.of_some hv
    obtain rfl := Option.some.inj (he.symm.trans he')
    exact ⟨i, v, rfl, hi, hat, hlen⟩

/-- A key has an entry exactly when it has a value. -/
theorem Represents.get_eq_none_iff (h : Represents crc recs rd evs index) {k : Bytes} :
    index.get k = none ↔ value k evs = none := by
  refine ⟨fun hk => ?_, h.of_none⟩
  cases hv : value k evs with
  | none => rfl
  | some v =>
    obtain ⟨e, i, he, -⟩ := h.of_some hv
    rw [hk] at he; cases he

/-- The statement for each key on its own. -/
theorem represents_of (hnone : ∀ k, value k evs = none → index.get k = none)
    (hsome : ∀ k v, value k evs = some v → ∃ e i, index.get k = some e ∧ rd e.fileId = some i ∧
      At crc (recs i) e.offset (.set e.ts k v) ∧
      e.len = ((Command.set e.ts k v).serialize crc).length) :
    Represents crc recs rd evs index := by
  intro k
  cases hv : value k evs with
  | none => exact hnone k hv
  | some v => exact hsome k v hv

/-- Events with the same values. -/
theorem Represents.congr {evs' : List (Bytes × Option Bytes)} (h : Represents crc recs rd evs index)
    (heq : ∀ k, value k evs' = value k evs) : Represents crc recs rd evs' index := by
  intro k
  rw [heq]
  exact h k

/-- One more file is replayed. -/
theorem Represents.loads {fileId : ℕ} {i : Inode} (h : Represents crc recs rd evs index)
    (hi : rd fileId = some i) (hl : Loads crc fileId (recs i) es index index') :
    Represents crc recs rd (evs ++ es) index' := by
  refine represents_of (fun k hv => ?_) (fun k v hv => ?_)
  · obtain ⟨hnone, hrm, hset⟩ := hl k
    cases hlast : lastOf k es with
    | none =>
      rw [value_append_of_none hlast] at hv
      exact (hnone hlast).trans (h.of_none hv)
    | some o =>
      rw [value, lastOf_append_of_some hlast] at hv
      obtain rfl : o = none := hv
      exact hrm hlast
  · obtain ⟨hnone, hrm, hset⟩ := hl k
    cases hlast : lastOf k es with
    | none =>
      rw [value_append_of_none hlast] at hv
      rw [hnone hlast]
      exact h.of_some hv
    | some o =>
      rw [value, lastOf_append_of_some hlast] at hv
      obtain rfl : o = some v := hv
      obtain ⟨e, he, hid, hat, hlen⟩ := hset v hlast
      exact ⟨e, i, he, by rw [hid]; exact hi, hat, hlen⟩

end Represents

end Bitcask
