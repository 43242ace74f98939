import Bitcask.Storage.Crc32
import Bitcask.Storage.Get
import Bitcask.Storage.Session

/-!
# Hint files against data files

1. `hint_replay_eq_data_replay`: an output of a merge loads the same index through its hint as
   through its records.
2. `bad_hint_leaves_no_trace`: a hint file that is not wholly a sequence of hint records is removed
   and the data file is replayed instead. The entries of its first records are in the index by
   then; they vanish exactly if the data file or a later one has something to say about each of their
   keys.

Both rest on `Settles`: replaying a file forgets what the index said about some keys, and leaves the
others alone.
-/

namespace Bitcask

open LittleEndian FileSystem CrashHoare

variable (crc : Bytes → UInt32)

/-! ## What a part of the replay settles -/

/-- The two indices agree, except that the second may hold anything at the keys `touched`. -/
def AgreeOff (touched : Bytes → Prop) (index index' : Index) : Prop :=
  ∀ b k, (index' b).lookup k = (index b).lookup k ∨ b = Index.getBucket k ∧ touched k

/-- A part of the replay settles the keys `touched`, whatever the index said about them, and leaves
the others alone. -/
structure Settles (touched : Bytes → Prop) (g : Index → Index) : Prop where
  settled : ∀ index index' {k}, touched k → (g index).get k = (g index').get k
  kept : ∀ index, AgreeOff touched index (g index)

/-- Entries that go into the index one after the other. -/
def insertAll (es : List (Bytes × IndexValue)) (index : Index) : Index :=
  es.foldl (fun index e => index.insert e.1 e.2) index

section Settles

variable {crc} {cs pre : List Command} {index index' : Index} {fileId off : ℕ}
  {touched touched' : Bytes → Prop} {g g' : Index → Index}

theorem AgreeOff.get_eq (h : AgreeOff touched index index') {k : Bytes} (hk : ¬ touched k) :
    index'.get k = index.get k := (h _ k).resolve_right fun ht => hk ht.2

theorem AgreeOff.mono (h : AgreeOff touched index index') (hle : ∀ k, touched k → touched' k) :
    AgreeOff touched' index index' :=
  fun b k => (h b k).imp_right fun ⟨hb, hk⟩ => ⟨hb, hle k hk⟩

/-- What was said about the keys that are settled is forgotten. -/
theorem Settles.eq_of_agree (h : Settles touched g) (ha : AgreeOff touched index index') :
    g index' = g index := by
  refine Index.ext_lookup fun b k => ?_
  by_cases hk : b = Index.getBucket k ∧ touched k
  · obtain ⟨rfl, hk⟩ := hk
    exact h.settled index' index hk
  · rw [(h.kept index' b k).resolve_right hk, (h.kept index b k).resolve_right hk,
      (ha b k).resolve_right hk]

theorem Settles.none : Settles (fun _ => False) id :=
  ⟨fun _ _ _ h => h.elim, fun _ _ _ => Or.inl rfl⟩

/-- One part after another. -/
theorem Settles.comp (h : Settles touched g) (h' : Settles touched' g') :
    Settles (fun k => touched k ∨ touched' k) (g' ∘ g) := by
  constructor
  · intro index index' k hk
    by_cases hk' : touched' k
    · exact h'.settled _ _ hk'
    · show (g' (g index)).get k = (g' (g index')).get k
      rw [(h'.kept _).get_eq hk', (h'.kept _).get_eq hk']
      exact h.settled _ _ (hk.resolve_right hk')
  · intro index b k
    rcases h'.kept (g index) b k with he | ⟨hb, hk⟩
    · rcases h.kept index b k with he' | ⟨hb, hk⟩
      · exact Or.inl (he.trans he')
      · exact Or.inr ⟨hb, Or.inl hk⟩
    · exact Or.inr ⟨hb, Or.inr hk⟩

theorem Settles.congr (h : Settles touched g) (hiff : ∀ k, touched k ↔ touched' k) :
    Settles touched' g := by
  obtain rfl : touched = touched' := funext fun k => propext (hiff k)
  exact h

theorem settles_insert (key : Bytes) (v : IndexValue) : Settles (· = key) (·.insert key v) := by
  constructor
  · rintro index index' k rfl
    rw [Index.get_insert_self, Index.get_insert_self]
  · intro index b k
    rw [Index.lookup_insert]
    split
    · rename_i hbk
      exact Or.inr ⟨hbk.2 ▸ hbk.1, hbk.2⟩
    · exact Or.inl rfl

theorem settles_remove (key : Bytes) : Settles (· = key) (·.remove key) := by
  constructor
  · rintro index index' k rfl
    rw [Index.get_remove_self, Index.get_remove_self]
  · intro index b k
    rw [Index.lookup_remove]
    split
    · rename_i hbk
      exact Or.inr ⟨hbk.2 ▸ hbk.1, hbk.2⟩
    · exact Or.inl rfl

theorem settles_loadCommand (crc : Bytes → UInt32) (fileId off : ℕ) (c : Command) :
    Settles (· = c.getKey) (loadCommand crc fileId off · c) := by
  cases c with
  | set ts key value => exact settles_insert key _
  | rm ts key => exact settles_remove key

/-- The records of a file settle their keys. -/
theorem settles_loadAll (crc : Bytes → UInt32) (fileId off : ℕ) (cs : List Command) :
    Settles (fun k => ∃ c ∈ cs, c.getKey = k) (loadAll crc fileId off cs) := by
  induction cs generalizing off with
  | nil => exact Settles.none.congr fun k => by simp
  | cons c cs ih =>
    refine ((settles_loadCommand crc fileId off c).comp (ih _)).congr fun k => ?_
    simp [eq_comm]

/-- The hints of a file settle the keys of its sets. -/
theorem settles_loadHints (crc : Bytes → UInt32) (fileId off : ℕ) (cs : List Command) :
    Settles (fun k => ∃ c ∈ cs, c.IsSet ∧ c.getKey = k) (loadHints crc fileId off cs) := by
  induction cs generalizing off with
  | nil => exact Settles.none.congr fun k => by simp
  | cons c cs ih =>
    cases c with
    | set ts key value =>
      refine ((settles_loadCommand crc fileId off (.set ts key value)).comp (ih _)).congr fun k => ?_
      simp [Command.IsSet, eq_comm]
    | rm ts key => exact (ih _).congr fun k => by simp [Command.IsSet]

theorem settles_insertAll (es : List (Bytes × IndexValue)) :
    Settles (fun k => k ∈ es.map Prod.fst) (insertAll es) := by
  induction es with
  | nil => exact Settles.none.congr fun k => by simp
  | cons e es ih => exact ((settles_insert e.1 e.2).comp ih).congr fun k => by simp

/-- A key of the entries is in the index after them, with an entry of the list. -/
theorem get_insertAll {es : List (Bytes × IndexValue)} {k : Bytes} (hk : k ∈ es.map Prod.fst)
    (index : Index) : ∃ v, (insertAll es index).get k = some v ∧ (k, v) ∈ es := by
  induction es using List.reverseRecOn with
  | nil => cases hk
  | append_singleton es e ih =>
    unfold insertAll at ih ⊢
    rw [List.foldl_append, List.foldl_cons, List.foldl_nil]
    by_cases he : k = e.1
    · subst he
      exact ⟨e.2, Index.get_insert_self .., by simp⟩
    · rw [Index.get_insert_ne he]
      obtain ⟨v, hv, hmem⟩ := ih (by simpa [he] using hk)
      exact ⟨v, hv, List.mem_append_left _ hmem⟩

/-- The hints of a file of sets are its records. -/
theorem loadHints_eq_loadAll (hset : ∀ c ∈ cs, c.IsSet) :
    loadHints crc fileId off cs index = loadAll crc fileId off cs index := by
  induction cs generalizing off index with
  | nil => rfl
  | cons c cs ih =>
    have hc := hset c List.mem_cons_self
    cases c with
    | set ts key value => exact ih fun d hd => hset d (List.mem_cons_of_mem _ hd)
    | rm ts key => exact hc.elim

theorem removedBytes_sets (hset : ∀ c ∈ cs, c.IsSet) : removedBytes crc cs = 0 := by
  unfold removedBytes
  refine List.sum_eq_zero fun x hx => ?_
  obtain ⟨c, hc, rfl⟩ := List.mem_map.mp hx
  exact if_pos (hset c hc)

end Settles

/-! ## The files of the entries -/

/-- No entry of the index is of the file. -/
def Index.NoneOf (id : ℕ) (index : Index) : Prop := ∀ k e, index.get k = some e → e.fileId ≠ id

section NoneOf

variable {crc} {index : Index} {id fileId off : ℕ}

theorem Index.NoneOf.insert (h : index.NoneOf id) {key : Bytes} {v : IndexValue} (hv : v.fileId ≠ id) :
    (index.insert key v).NoneOf id := by
  intro k e he
  by_cases hk : k = key
  · rw [hk, Index.get_insert_self] at he
    cases he
    exact hv
  · rw [Index.get_insert_ne hk] at he
    exact h k e he

theorem Index.NoneOf.remove (h : index.NoneOf id) {key : Bytes} : (index.remove key).NoneOf id := by
  intro k e he
  by_cases hk : k = key
  · rw [hk, Index.get_remove_self] at he
    cases he
  · rw [Index.get_remove_ne hk] at he
    exact h k e he

theorem Index.NoneOf.loadAll (h : index.NoneOf id) (hne : fileId ≠ id) (cs : List Command) :
    (loadAll crc fileId off cs index).NoneOf id := by
  induction cs generalizing off index with
  | nil => exact h
  | cons c cs ih =>
    refine ih ?_
    cases c with
    | set ts key value => exact h.insert hne
    | rm ts key => exact h.remove

theorem Index.NoneOf.insertAll (h : index.NoneOf id) {es : List (Bytes × IndexValue)}
    (hes : ∀ e ∈ es, e.2.fileId ≠ id) : (insertAll es index).NoneOf id := by
  induction es generalizing index with
  | nil => exact h
  | cons e es ih =>
    exact ih (h.insert (hes e List.mem_cons_self)) fun e' he' => hes e' (List.mem_cons_of_mem _ he')

end NoneOf

/-! ## One file, through its records and through its hint -/

section File

variable {crc} {fs : Fs FileName} {l : Loader} {id : ℕ} {i h : Inode} {cs : List Command}

theorem replayFile_no_hint (hh : fs.lookup (.hint id) = none) :
    storeNames.replayFile crc l id i fs = replayData crc id i l fs := by
  unfold Naming.replayFile
  show (Prog.bind Prog.get _ fs) = _
  simp only [Prog.bind, Prog.get, hh, List.nil_append]

/-- A hint that is read to its end. -/
theorem replayFile_hint (hid : id ≠ l.writer.currentFileId) (hh : fs.lookup (.hint id) = some h)
    {index : Index}
    (hrun : forRecordsOf (hintRecord crc id) (fs.bytes h) l.index = .done index none) :
    storeNames.replayFile crc l id i fs = ⟨[], .ok ({ l with index }, true), fs⟩ := by
  unfold Naming.replayFile
  show (Prog.bind Prog.get _ fs) = _
  simp only [Prog.bind, Prog.get, hh, if_pos hid, hrun, List.nil_append]
  rfl

/-- A hint that is not: it is removed, and its first entries stay in the index. -/
theorem replayFile_fallback (hid : id ≠ l.writer.currentFileId)
    (hh : fs.lookup (.hint id) = some h) {index : Index}
    (hrun : (∃ p, forRecordsOf (hintRecord crc id) (fs.bytes h) l.index = .done index (some p)) ∨
      ∃ e, forRecordsOf (hintRecord crc id) (fs.bytes h) l.index = .stop index e) :
    (storeNames.replayFile crc l id i fs).result =
        (replayData crc id i { l with index } (fs.unlink (.hint id))).result ∧
      (storeNames.replayFile crc l id i fs).after =
        (replayData crc id i { l with index } (fs.unlink (.hint id))).after := by
  unfold Naming.replayFile
  rcases hrun with ⟨p, hrun⟩ | ⟨e, hrun⟩ <;>
    exact ⟨by
      show (Prog.bind Prog.get _ fs).result = _
      simp only [Prog.bind, Prog.get, hh, if_pos hid, hrun]
      rfl, by
      show (Prog.bind Prog.get _ fs).after = _
      simp only [Prog.bind, Prog.get, hh, if_pos hid, hrun]
      rfl⟩

/-- After the fallback, a file of whole records is loaded over what the hint has put into the
index. -/
theorem replayFile_fallback_eq (hid : id ≠ l.writer.currentFileId)
    (hh : fs.lookup (.hint id) = some h) (hb : fs.bytes i = encodeAll crc cs)
    (hfits : ∀ c ∈ cs, c.Fits) {index : Index}
    (hrun : (∃ p, forRecordsOf (hintRecord crc id) (fs.bytes h) l.index = .done index (some p)) ∨
      ∃ e, forRecordsOf (hintRecord crc id) (fs.bytes h) l.index = .stop index e) :
    (storeNames.replayFile crc l id i fs).result = .ok (({ l with index }).loaded crc id cs, true) ∧
      (storeNames.replayFile crc l id i fs).after = fs.unlink (.hint id) := by
  obtain ⟨hres, hafter⟩ := replayFile_fallback (i := i) hid hh hrun
  have hb' : (fs.unlink (.hint id)).bytes i = encodeAll crc cs := hb
  rw [replayData_eq hb' hfits] at hres hafter
  exact ⟨hres, hafter⟩

end File

/-! ## The output of a merge -/

/-- `MergeOutput::append` for each `Set` record in turn; a merge copies no remove. -/
def MergeOutput.appendAll (out : MergeOutput) : List Command → MergeOutput
  | [] => out
  | c@(.set ts key _) :: cs => appendAll (out.append crc (c.serialize crc) key ts).1 cs
  | .rm _ _ :: cs => appendAll out cs

section Output

variable {crc} {cs : List Command}

/-- The two buffers of an output: the records, and their hints. -/
theorem MergeOutput.buffers_appendAll (crc : Bytes → UInt32) (hset : ∀ c ∈ cs, c.IsSet) (out : MergeOutput) :
    (out.appendAll crc cs).dataBuf = out.dataBuf ++ encodeAll crc cs ∧
      (out.appendAll crc cs).hintBuf = out.hintBuf ++ hintsOf crc out.written cs := by
  induction cs generalizing out with
  | nil => exact ⟨(List.append_nil _).symm, (List.append_nil _).symm⟩
  | cons c cs ih =>
    have hc := hset c List.mem_cons_self
    cases c with
    | rm ts key => exact hc.elim
    | set ts key value =>
      obtain ⟨hdata, hhint⟩ := ih (fun d hd => hset d (List.mem_cons_of_mem _ hd))
        (out.append crc ((Command.set ts key value).serialize crc) key ts).1
      refine ⟨hdata.trans ?_, hhint.trans ?_⟩
      · simp only [MergeOutput.append, encodeAll_cons, List.append_assoc]
      · simp only [MergeOutput.append, hintsOf, hintOf, List.append_assoc]
        rfl

/-- Through its hint, an output loads the index its records load. A hint that does not decode, of a
key too long for its length field, is no exception: the replay falls back to the records. -/
theorem hint_replay_eq_data_replay (hset : ∀ c ∈ cs, c.IsSet) (hfits : ∀ c ∈ cs, c.Fits)
    (hlen : (encodeAll crc cs).length < 2 ^ 64) {out : MergeOutput} {id : ℕ} {data hint i h : Inode}
    (hout : out = MergeOutput.appendAll crc ⟨id, data, [], hint, [], 0⟩ cs) (l : Loader)
    (hid : id ≠ l.writer.currentFileId) {fs : Fs FileName} (hh : fs.lookup (.hint id) = some h)
    (hdata : fs.bytes i = out.dataBuf) (hhint : fs.bytes h = out.hintBuf) :
    ∃ l₁ l₂, (storeNames.replayFile crc l id i fs).result = .ok (l₁, true) ∧
      (storeNames.replayFile crc l id i (fs.unlink (.hint id))).result = .ok (l₂, true) ∧
      l₁.index = l₂.index ∧
      l₁.writer.staleBytesCount = l.writer.staleBytesCount ∧
      l₂.writer.staleBytesCount = l.writer.staleBytesCount := by
  obtain ⟨hbuf, hbuf'⟩ := MergeOutput.buffers_appendAll crc hset ⟨id, data, [], hint, [], 0⟩
  rw [hout, hbuf, List.nil_append] at hdata
  rw [hout, hbuf', List.nil_append] at hhint
  have hb : (fs.unlink (.hint id)).bytes i = encodeAll crc cs := hdata
  have hstale : (l.loaded crc id cs).writer.staleBytesCount = l.writer.staleBytesCount := by
    show l.writer.staleBytesCount + removedBytes crc cs = _
    rw [removedBytes_sets hset, Nat.add_zero]
  have hplain : (storeNames.replayFile crc l id i (fs.unlink (.hint id))).result =
      .ok (l.loaded crc id cs, true) := by
    rw [replayFile_no_hint (Fs.lookup_unlink_self fs _), replayData_eq hb hfits]
  by_cases hall : ∀ c ∈ cs, c.IsSet → HintFits c
  · have hrun := forRecordsOf_hint crc id hall hlen l.index
    rw [← hhint, loadHints_eq_loadAll hset] at hrun
    exact ⟨{ l with index := loadAll crc id 0 cs l.index }, l.loaded crc id cs,
      by rw [replayFile_hint hid hh hrun], hplain, rfl, rfl, hstale⟩
  · obtain ⟨pre, c, post, hcs, hc, hbad, hpre⟩ := exists_first_misfit hall
    have hcfits : c.Fits := hfits c (by rw [hcs]; exact List.mem_append_right _ List.mem_cons_self)
    obtain ⟨e, hstop⟩ := hint_stops crc id hcs hcfits hc hbad hpre hlen l.index
    rw [← hhint] at hstop
    have hagree : AgreeOff (fun k => ∃ c ∈ cs, c.getKey = k) l.index
        (loadHints crc id 0 pre l.index) := by
      refine ((settles_loadHints crc id 0 pre).kept l.index).mono ?_
      rintro k ⟨d, hd, -, hk⟩
      exact ⟨d, by rw [hcs]; exact List.mem_append_left _ hd, hk⟩
    obtain ⟨hres, -⟩ := replayFile_fallback_eq hid hh hdata hfits (Or.inr ⟨e, hstop⟩)
    exact ⟨_, _, hres, hplain, (settles_loadAll crc id 0 cs).eq_of_agree hagree, hstale, hstale⟩

/-- Two sets of one key and one of another, as a merge copies them. -/
def copies : List Command :=
  [.set 5 (asBytes "a") (asBytes "1"), .set 6 (asBytes "b") (asBytes "2"),
    .set 7 (asBytes "a") (asBytes "3")]

theorem hint_replay_eq_data_replay_copies : ∃ l₁ l₂,
    (storeNames.replayFile crc32 ⟨∅, Index.empty, ⟨2, 7, 0, 0, 0, 9⟩⟩ 1 0
      ((Fs.empty.put (.data 1) (encodeAll crc32 copies)).put (.hint 1)
        (hintsOf crc32 0 copies))).result = .ok (l₁, true) ∧
    (storeNames.replayFile crc32 ⟨∅, Index.empty, ⟨2, 7, 0, 0, 0, 9⟩⟩ 1 0
      (((Fs.empty.put (.data 1) (encodeAll crc32 copies)).put (.hint 1)
        (hintsOf crc32 0 copies)).unlink (.hint 1))).result = .ok (l₂, true) ∧
    l₁.index = l₂.index ∧ l₁.writer.staleBytesCount = 9 ∧ l₂.writer.staleBytesCount = 9 := by
  have hset : ∀ c ∈ copies, c.IsSet := by decide
  have hout : MergeOutput.appendAll crc32 ⟨1, 0, [], 1, [], 0⟩ copies =
      MergeOutput.appendAll crc32 ⟨1, 0, [], 1, [], 0⟩ copies := rfl
  exact hint_replay_eq_data_replay (h := 1) hset (by decide) (by decide +kernel) hout _ (by decide)
    (by decide) (by decide +kernel) (by decide +kernel)

end Output

/-! ## A hint that does not decode -/

/-- Hint records of the file `id`, one by one. -/
def HintRecords (id : ℕ) (bs : List Bytes) : Prop :=
  ∀ b ∈ bs, IsFrame b ∧ ∃ r, IndexValue.deserialize crc b id = .ok r

/-- The bytes are wholly a sequence of hint records. -/
def ValidHint (id : ℕ) (b : Bytes) : Prop := ∃ bs, b = bs.flatten ∧ HintRecords crc id bs

/-- The loop went over the whole stream. -/
def Loop.clean {ε σ : Type} : Loop ε σ → Bool
  | .done _ none => true
  | _ => false

/-- Put the entry of a hint record at the end of a list. -/
def collectEntry (id : ℕ) (es : List (Bytes × IndexValue)) (_position : ℕ) (b : Bytes) :
    Except KvsError (List (Bytes × IndexValue)) :=
  (IndexValue.deserialize crc b id).map fun r => es ++ [(r.1, r.2.1)]

/-- The entries of the hint records at the start of a file, up to the first that does not decode. -/
def hintEntries (id : ℕ) (b : Bytes) : List (Bytes × IndexValue) :=
  match forRecordsOf (collectEntry crc id) b [] with
  | .done es _ => es
  | .stop es _ => es
  | .panic => []

section HintLoop

variable {crc} {id : ℕ} {b : Bytes}

/-- The hint loop puts the entries into the index. -/
theorem hint_loop (b : Bytes) (index : Index) : forRecordsOf (hintRecord crc id) b index =
    (forRecordsOf (collectEntry crc id) b []).map (insertAll · index) := by
  refine forRecordsOf_map (insertAll · index) (fun es p b => ?_) b []
  unfold hintRecord collectEntry
  cases IndexValue.deserialize crc b id with
  | error e => rfl
  | ok r =>
    refine congrArg Except.ok ?_
    show _ = insertAll (es ++ [(r.1, r.2.1)]) index
    unfold insertAll
    rw [List.foldl_append]
    rfl

theorem foldRecords_collectEntry {bs : List Bytes} {p : ℕ} {es es' : List (Bytes × IndexValue)}
    (hbs : ∀ b ∈ bs, IsFrame b) (hfold : foldRecords (collectEntry crc id) p bs es = .ok es')
    (hes : ∀ e ∈ es, e.2.fileId = id) : HintRecords crc id bs ∧ ∀ e ∈ es', e.2.fileId = id := by
  induction bs generalizing p es with
  | nil =>
    obtain rfl := Except.ok.inj hfold
    exact ⟨fun b hb => absurd hb List.not_mem_nil, hes⟩
  | cons b bs ih =>
    obtain ⟨es₁, h1, h2⟩ := bind_eq_ok.mp hfold
    unfold collectEntry at h1
    cases hr : IndexValue.deserialize crc b id with
    | error e => rw [hr] at h1; cases h1
    | ok r =>
      rw [hr] at h1
      obtain rfl := Except.ok.inj h1
      have hid : r.2.1.fileId = id := ((IndexValue.deserialize_eq_ok crc).mp hr).1
      obtain ⟨hrecs, hes'⟩ := ih (fun x hx => hbs x (List.mem_cons_of_mem _ hx)) h2 fun e he => by
        rcases List.mem_append.mp he with he | he
        · exact hes e he
        · rw [List.mem_singleton.mp he]
          exact hid
      refine ⟨fun x hx => ?_, hes'⟩
      rcases List.mem_cons.mp hx with rfl | hx
      · exact ⟨hbs x List.mem_cons_self, r, hr⟩
      · exact hrecs x hx

/-- The entries of a hint are of its file. -/
theorem hintEntries_fileId {e : Bytes × IndexValue} (he : e ∈ hintEntries crc id b) :
    e.2.fileId = id := by
  unfold hintEntries at he
  split at he
  · rename_i hrun
    obtain ⟨bs, rest, -, hbs, -, hfold, -⟩ := forRecordsOf_inv hrun
    exact (foldRecords_collectEntry hbs hfold (by simp)).2 e he
  · rename_i hrun
    obtain ⟨bs, f, rest, -, hbs, -, hfold, -⟩ := forRecordsOf_stop_inv hrun
    exact (foldRecords_collectEntry hbs hfold (by simp)).2 e he
  · cases he

/-- A hint is read to its end exactly if it is wholly a sequence of hint records. -/
theorem clean_iff_validHint :
    (forRecordsOf (collectEntry crc id) b []).clean = true ↔ ValidHint crc id b := by
  constructor
  · intro hclean
    cases hrun : forRecordsOf (collectEntry crc id) b [] with
    | panic => rw [hrun] at hclean; cases hclean
    | stop es e => rw [hrun] at hclean; cases hclean
    | done es torn =>
      obtain ⟨bs, rest, hb, hbs, -, hfold, htorn⟩ := forRecordsOf_inv hrun
      have hnil : rest = [] := by
        by_contra hne
        rw [hrun, htorn, tornAt, if_neg hne] at hclean
        cases hclean
      exact ⟨bs, by rw [hb, hnil, List.append_nil],
        (foldRecords_collectEntry hbs hfold (by simp)).1⟩
  · rintro ⟨bs, rfl, hbs⟩
    have hfold : ∀ p es, ∃ es', foldRecords (collectEntry crc id) p bs es = .ok es' := by
      induction bs with
      | nil => exact fun _ es => ⟨es, rfl⟩
      | cons b bs ih =>
        intro p es
        obtain ⟨-, r, hr⟩ := hbs b List.mem_cons_self
        obtain ⟨es', h'⟩ := ih (fun x hx => hbs x (List.mem_cons_of_mem _ hx)) (p + b.length)
          (es ++ [(r.1, r.2.1)])
        exact ⟨es', bind_eq_ok.mpr ⟨_, by rw [collectEntry, hr]; rfl, h'⟩⟩
    obtain ⟨es', h'⟩ := hfold 0 []
    have hrun := forRecordsOf_done (fun b hb => (hbs b hb).1) (Or.inl rfl) h'
    rw [List.append_nil] at hrun
    rw [hrun]
    rfl

end HintLoop

/-! ## The whole replay -/

/-- The hint of the file with the id is there and decodes, so the replay of a sealed file does
without its records. -/
def hintServes (fs : Fs FileName) (id : ℕ) : Bool :=
  match fs.lookup (.hint id) with
  | none => false
  | some h => (forRecordsOf (collectEntry crc id) (fs.bytes h) []).clean

/-- The entries that the hint of the file with the id puts into the index. -/
def entriesOf (fs : Fs FileName) (id : ℕ) : List (Bytes × IndexValue) :=
  match fs.lookup (.hint id) with
  | none => []
  | some h => hintEntries crc id (fs.bytes h)

/-- The index after a sealed file. -/
def indexAfter (fs : Fs FileName) (f : ℕ × Inode) (index : Index) : Index :=
  if hintServes crc fs f.1 then insertAll (entriesOf crc fs f.1) index
  else loadAll crc f.1 0 (recordsOf crc (fs.bytes f.2)) (insertAll (entriesOf crc fs f.1) index)

/-- The loader after a sealed file. -/
def Loader.afterFile (fs : Fs FileName) (l : Loader) (f : ℕ × Inode) : Loader :=
  { l with
    index := indexAfter crc fs f l.index
    writer := if hintServes crc fs f.1 then l.writer
      else (l.loaded crc f.1 (recordsOf crc (fs.bytes f.2))).writer }

/-- The loader after sealed files and the active file. -/
def Loader.afterAll (fs : Fs FileName) (front : List (ℕ × Inode)) (l : Loader) : Loader :=
  (front.foldl (Loader.afterFile crc fs) l).loaded crc l.writer.currentFileId
    (recordsOf crc (fs.bytes l.writer.file))

/-- While `cur` is the active file, the replay of the file settles what the index says about the
key: a sealed file by the entries of its hint, and a file that is replayed from its records by
these. -/
def Touches (fs : Fs FileName) (cur : ℕ) (f : ℕ × Inode) (k : Bytes) : Prop :=
  f.1 ≠ cur ∧ k ∈ (entriesOf crc fs f.1).map Prod.fst ∨
    ¬ (f.1 ≠ cur ∧ hintServes crc fs f.1 = true) ∧
      ∃ c ∈ recordsOf crc (fs.bytes f.2), c.getKey = k

instance (fs : Fs FileName) (cur : ℕ) (f : ℕ × Inode) (k : Bytes) :
    Decidable (Touches crc fs cur f k) := inferInstanceAs (Decidable
  (f.1 ≠ cur ∧ k ∈ (entriesOf crc fs f.1).map Prod.fst ∨
    ¬ (f.1 ≠ cur ∧ hintServes crc fs f.1 = true) ∧
      ∃ c ∈ recordsOf crc (fs.bytes f.2), c.getKey = k))

section Replay

variable {crc} {fs fs' : Fs FileName} {l : Loader} {id cur : ℕ} {i h : Inode}
  {f : ℕ × Inode} {front : List (ℕ × Inode)}

theorem replay_cons {l' : Loader}
    (hf : (storeNames.replayFile crc l f.1 f.2 fs).result = .ok (l', true)) (files : List (ℕ × Inode)) :
    (storeNames.replay crc (f :: files) l fs).result =
        (storeNames.replay crc files l' (storeNames.replayFile crc l f.1 f.2 fs).after).result ∧
      (storeNames.replay crc (f :: files) l fs).after =
        (storeNames.replay crc files l' (storeNames.replayFile crc l f.1 f.2 fs).after).after := by
  constructor
  · show (Prog.bind (storeNames.replayFile crc l f.1 f.2) _ fs).result = _
    simp only [Prog.bind, hf, if_true]
  · show (Prog.bind (storeNames.replayFile crc l f.1 f.2) _ fs).after = _
    simp only [Prog.bind, hf, if_true]

/-- A sealed file is replayed from its hint, or its hint is removed and it is replayed from its
records. -/
theorem replayFile_eq (hid : f.1 ≠ l.writer.currentFileId) (hsealed : Sealed crc (fs.bytes f.2)) :
    (storeNames.replayFile crc l f.1 f.2 fs).result = .ok (l.afterFile crc fs f, true) ∧
      ((storeNames.replayFile crc l f.1 f.2 fs).after = fs ∧
          (hintServes crc fs f.1 = true ∨ fs.lookup (.hint f.1) = none) ∨
        (storeNames.replayFile crc l f.1 f.2 fs).after = fs.unlink (.hint f.1)) := by
  obtain ⟨hb, hfits⟩ := hsealed.eq
  unfold Loader.afterFile indexAfter
  cases hh : fs.lookup (.hint f.1) with
  | none =>
    have hserves : hintServes crc fs f.1 = false := by rw [hintServes, hh]
    have hes : entriesOf crc fs f.1 = [] := by rw [entriesOf, hh]
    rw [replayFile_no_hint hh, replayData_eq hb hfits, hserves, hes]
    exact ⟨rfl, Or.inl ⟨rfl, Or.inr rfl⟩⟩
  | some h =>
    have hloop := @hint_loop crc f.1 (fs.bytes h) l.index
    cases hrun : forRecordsOf (collectEntry crc f.1) (fs.bytes h) [] with
    | panic => exact absurd hrun (forRecordsOf_ne_panic _ _)
    | stop es e =>
      have hserves : hintServes crc fs f.1 = false := by simp only [hintServes, hh, hrun, Loop.clean]
      have hes : entriesOf crc fs f.1 = es := by simp only [entriesOf, hh, hintEntries, hrun]
      rw [hrun] at hloop
      obtain ⟨hres, hafter⟩ := replayFile_fallback_eq hid hh hb hfits (Or.inr ⟨e, hloop⟩)
      rw [hserves, hes]
      exact ⟨hres, Or.inr hafter⟩
    | done es torn =>
      have hes : entriesOf crc fs f.1 = es := by simp only [entriesOf, hh, hintEntries, hrun]
      rw [hrun] at hloop
      cases torn with
      | none =>
        have hserves : hintServes crc fs f.1 = true := by simp only [hintServes, hh, hrun, Loop.clean]
        rw [replayFile_hint hid hh hloop, hserves, hes]
        exact ⟨rfl, Or.inl ⟨rfl, Or.inl rfl⟩⟩
      | some p =>
        have hserves : hintServes crc fs f.1 = false := by simp only [hintServes, hh, hrun, Loop.clean]
        obtain ⟨hres, hafter⟩ := replayFile_fallback_eq hid hh hb hfits (Or.inl ⟨p, hloop⟩)
        rw [hserves, hes]
        exact ⟨hres, Or.inr hafter⟩

/-- A file is replayed in the same way wherever its bytes and its hint are the same. -/
theorem Loader.afterFile_congr (hbytes : fs'.bytes = fs.bytes)
    (hhint : fs'.lookup (.hint f.1) = fs.lookup (.hint f.1)) (l : Loader) :
    l.afterFile crc fs' f = l.afterFile crc fs f := by
  unfold Loader.afterFile indexAfter hintServes entriesOf
  rw [hbytes, hhint]

/-- The loop over the sealed files `front` and the active file. The hints that do not decode are gone
in the end. -/
theorem replay_eq (hne : ∀ f ∈ front, f.1 ≠ l.writer.currentFileId)
    (hsealed : ∀ f ∈ front, Sealed crc (fs.bytes f.2))
    (hdistinct : front.Pairwise fun f g => f.1 ≠ g.1)
    (hactive : Readable crc (fs.bytes l.writer.file)) :
    (storeNames.replay crc (front ++ [(l.writer.currentFileId, l.writer.file)]) l fs).result =
        .ok (l.afterAll crc fs front) ∧
      (∀ {n j}, (storeNames.replay crc (front ++ [(l.writer.currentFileId, l.writer.file)])
          l fs).after.lookup n =
        some j → fs.lookup n = some j) ∧
      ∀ f ∈ front, hintServes crc fs f.1 = false →
        (storeNames.replay crc (front ++ [(l.writer.currentFileId, l.writer.file)]) l fs).after.lookup
          (.hint f.1) = none := by
  induction front generalizing l fs with
  | nil =>
    obtain ⟨t, hb, ht, hfits⟩ := hactive.eq
    obtain ⟨hres, hafter⟩ := replay_last hb ht hfits
    refine ⟨hres, fun {n j} hj => ?_, by simp⟩
    rw [List.nil_append, hafter] at hj
    split at hj
    · exact hj
    · exact hj
  | cons f front ih =>
    obtain ⟨hf, hfront⟩ := List.pairwise_cons.mp hdistinct
    obtain ⟨hres, hafter⟩ := replayFile_eq (hne f List.mem_cons_self) (hsealed f List.mem_cons_self)
    set fs₁ := (storeNames.replayFile crc l f.1 f.2 fs).after with hfs₁
    obtain ⟨hrest, hrest'⟩ := replay_cons hres
      (front ++ [(l.writer.currentFileId, l.writer.file)])
    rw [← hfs₁] at hrest hrest'
    have hbytes : fs₁.bytes = fs.bytes := by
      rcases hafter with ⟨he, -⟩ | he
      · rw [he]
      · rw [he]
        rfl
    have hlook : ∀ {n j}, fs₁.lookup n = some j → fs.lookup n = some j := by
      intro n j hj
      rcases hafter with ⟨he, -⟩ | he
      · rwa [he] at hj
      · by_cases hn : n = .hint f.1
        · rw [he, hn, Fs.lookup_unlink_self] at hj
          cases hj
        · rwa [he, Fs.lookup_unlink_ne _ hn] at hj
    have hhint : ∀ g ∈ front, fs₁.lookup (.hint g.1) = fs.lookup (.hint g.1) := by
      intro g hg
      rcases hafter with ⟨he, -⟩ | he
      · rw [he]
      · rw [he, Fs.lookup_unlink_ne _ fun hgf => hf g hg (FileName.hint.inj hgf).symm]
    -- the rest of the loop, in the directory that the first file leaves
    have hcur : (l.afterFile crc fs f).writer.currentFileId = l.writer.currentFileId ∧
        (l.afterFile crc fs f).writer.file = l.writer.file := by
      unfold Loader.afterFile
      split <;> exact ⟨rfl, rfl⟩
    have hrec := @ih fs₁ (l.afterFile crc fs f)
      (by rw [hcur.1]; exact fun g hg => hne g (List.mem_cons_of_mem _ hg))
      (by rw [hbytes]; exact fun g hg => hsealed g (List.mem_cons_of_mem _ hg)) hfront
      (by rw [hbytes, hcur.2]; exact hactive)
    rw [hcur.1, hcur.2] at hrec
    obtain ⟨hok, hkeeps, hgone⟩ := hrec
    rw [List.cons_append, hrest, hrest']
    refine ⟨?_, fun hj => hlook (hkeeps hj), fun g hg hserves => ?_⟩
    · rw [hok]
      unfold Loader.afterAll
      rw [hcur.1, hcur.2, hbytes, List.foldl_cons,
        List.foldl_ext _ _ _ fun l' g hg => Loader.afterFile_congr hbytes (hhint g hg) l']
    · rcases List.mem_cons.mp hg with rfl | hg
      · rw [Option.eq_none_iff_forall_not_mem]
        intro j hj
        rcases hafter with ⟨he, hs | hnone⟩ | he
        · rw [hserves] at hs
          cases hs
        · rw [hlook (hkeeps hj)] at hnone
          cases hnone
        · have hj' := hkeeps hj
          rw [he, Fs.lookup_unlink_self] at hj'
          cases hj'
      · refine hgone g hg ?_
        unfold hintServes at hserves ⊢
        rw [hhint g hg, hbytes]
        exact hserves

/-! ### What the files settle -/

theorem settles_indexAfter (hid : f.1 ≠ cur) :
    Settles (Touches crc fs cur f) (indexAfter crc fs f) := by
  have hins := settles_insertAll (entriesOf crc fs f.1)
  unfold indexAfter Touches
  cases hserves : hintServes crc fs f.1 with
  | true => exact hins.congr fun k => by simp [hid]
  | false =>
    refine (hins.comp (settles_loadAll crc f.1 0 (recordsOf crc (fs.bytes f.2)))).congr fun k => ?_
    simp [hid]

theorem settles_foldl (hne : ∀ f ∈ front, f.1 ≠ cur) :
    Settles (fun k => ∃ f ∈ front, Touches crc fs cur f k)
      (front.foldl (fun index f => indexAfter crc fs f index)) := by
  induction front with
  | nil => exact Settles.none.congr fun k => by simp
  | cons f front ih =>
    exact ((settles_indexAfter (hne f List.mem_cons_self)).comp
      (ih fun g hg => hne g (List.mem_cons_of_mem _ hg))).congr fun k => by simp

theorem noneOf_foldl {index : Index} (h : index.NoneOf id) (hne : ∀ f ∈ front, f.1 ≠ id) :
    (front.foldl (fun index f => indexAfter crc fs f index) index).NoneOf id := by
  induction front generalizing index with
  | nil => exact h
  | cons f front ih =>
    have hf := hne f List.mem_cons_self
    have hins : (insertAll (entriesOf crc fs f.1) index).NoneOf id := by
      refine h.insertAll fun e he => ?_
      unfold entriesOf at he
      split at he
      · cases he
      · rw [hintEntries_fileId he]
        exact hf
    have hafter : (indexAfter crc fs f index).NoneOf id := by
      unfold indexAfter
      split
      · exact hins
      · exact hins.loadAll hf _
    exact ih hafter fun g hg => hne g (List.mem_cons_of_mem _ hg)

/-- The files do not look at the index. -/
theorem Loader.foldl_afterFile (l : Loader) (index : Index) :
    front.foldl (Loader.afterFile crc fs) { l with index } =
      { front.foldl (Loader.afterFile crc fs) l with
        index := front.foldl (fun index f => indexAfter crc fs f index) index } := by
  induction front generalizing l index with
  | nil => rfl
  | cons f front ih => exact ih (l.afterFile crc fs f) (indexAfter crc fs f index)

/-- Entries of a file that no other part of the index is of do not show in the end exactly if all
their keys are settled later. -/
theorem Settles.eq_iff {touched : Bytes → Prop} {g : Index → Index} (hg : Settles touched g)
    {es : List (Bytes × IndexValue)} (hes : ∀ e ∈ es, e.2.fileId = id) {index : Index}
    (hindex : index.NoneOf id) :
    g (insertAll es index) = g index ↔ ∀ k ∈ es.map Prod.fst, touched k := by
  constructor
  · intro he k hk
    by_contra hnot
    obtain ⟨v, hv, hmem⟩ := get_insertAll hk index
    have hget : index.get k = some v := by
      rw [← hv, ← (hg.kept index).get_eq hnot, ← (hg.kept (insertAll es index)).get_eq hnot, he]
    exact hindex k v hget (hes _ hmem)
  · intro hall
    exact hg.eq_of_agree (((settles_insertAll es).kept index).mono hall)

/-- In a directory with a hint that does not decode, and in the same directory without it. -/
theorem Loader.afterAll_bad_hint {pre post : List (ℕ × Inode)} (l : Loader)
    (hpre : ∀ f ∈ pre, f.1 ≠ id) (hpost : ∀ f ∈ post, f.1 ≠ id ∧ f.1 ≠ l.writer.currentFileId)
    (hbad : hintServes crc fs id = false) (hindex : l.index.NoneOf id) :
    (l.afterAll crc fs (pre ++ (id, i) :: post)).readers =
        (l.afterAll crc (fs.unlink (.hint id)) (pre ++ (id, i) :: post)).readers ∧
      (l.afterAll crc fs (pre ++ (id, i) :: post)).writer =
        (l.afterAll crc (fs.unlink (.hint id)) (pre ++ (id, i) :: post)).writer ∧
      ((l.afterAll crc fs (pre ++ (id, i) :: post)).index =
          (l.afterAll crc (fs.unlink (.hint id)) (pre ++ (id, i) :: post)).index ↔
        ∀ k ∈ (entriesOf crc fs id).map Prod.fst,
          ((∃ c ∈ recordsOf crc (fs.bytes i), c.getKey = k) ∨
            ∃ f ∈ post, Touches crc fs l.writer.currentFileId f k) ∨
          ∃ c ∈ recordsOf crc (fs.bytes l.writer.file), c.getKey = k) := by
  have hsame : ∀ f : ℕ × Inode, f.1 ≠ id → ∀ l : Loader,
      l.afterFile crc (fs.unlink (.hint id)) f = l.afterFile crc fs f := by
    intro f hf l
    refine Loader.afterFile_congr (Fs.bytes_unlink ..) ?_ l
    exact Fs.lookup_unlink_ne _ fun he => hf (FileName.hint.inj he)
  have hfold : ∀ (files : List (ℕ × Inode)) (l : Loader), (∀ f ∈ files, f.1 ≠ id) →
      files.foldl (Loader.afterFile crc (fs.unlink (.hint id))) l =
        files.foldl (Loader.afterFile crc fs) l := fun files l hne =>
    List.foldl_ext _ _ _ fun l f hf => hsame f (hne f hf) l
  unfold Loader.afterAll
  rw [List.foldl_append, List.foldl_append, List.foldl_cons, List.foldl_cons, hfold pre l hpre,
    hfold post _ fun f hf => (hpost f hf).1]
  set x := pre.foldl (Loader.afterFile crc fs) l with hx
  set y := x.afterFile crc (fs.unlink (.hint id)) (id, i) with hy
  -- the two loaders behind the file of the hint differ in the index
  have hyindex : y.index = loadAll crc id 0 (recordsOf crc (fs.bytes i)) x.index := by
    rw [hy, Loader.afterFile, indexAfter, hintServes, entriesOf, Fs.lookup_unlink_self]
    rfl
  have hfile : x.afterFile crc fs (id, i) = { y with
      index := loadAll crc id 0 (recordsOf crc (fs.bytes i))
        (insertAll (entriesOf crc fs id) x.index) } := by
    rw [hy, Loader.afterFile, Loader.afterFile, indexAfter, hbad, hintServes, Fs.lookup_unlink_self]
    rfl
  have hplain : post.foldl (Loader.afterFile crc fs) y = { post.foldl (Loader.afterFile crc fs) y with
      index := post.foldl (fun index f => indexAfter crc fs f index) y.index } :=
    Loader.foldl_afterFile y y.index
  rw [hfile, Loader.foldl_afterFile, hplain, hyindex]
  refine ⟨rfl, rfl, ?_⟩
  have hnone : x.index.NoneOf id := by
    have hxindex : x.index = pre.foldl (fun index f => indexAfter crc fs f index) l.index :=
      congrArg Loader.index (Loader.foldl_afterFile l l.index)
    rw [hxindex]
    exact noneOf_foldl hindex hpre
  refine Settles.eq_iff (((settles_loadAll crc id 0 (recordsOf crc (fs.bytes i))).comp
    (settles_foldl fun f hf => (hpost f hf).2)).comp
    (settles_loadAll crc l.writer.currentFileId 0 (recordsOf crc (fs.bytes l.writer.file))))
    (fun e he => ?_) hnone
  unfold entriesOf at he
  split at he
  · cases he
  · exact hintEntries_fileId he

/-- A hint that is not wholly a sequence of hint records is removed, and the replay goes on as it would
without it. The two indices are the same exactly if each key that its first records name is a key of
its data file, or is settled by a later file. -/
theorem bad_hint_leaves_no_trace (l : Loader) {fs : Fs FileName} {id : ℕ} {i h : Inode}
    (hcur : l.readers[l.writer.currentFileId]? = some l.writer.file)
    (hmax : ∀ id i, l.readers[id]? = some i → id ≤ l.writer.currentFileId)
    (hsealed : ∀ id i, l.readers[id]? = some i → id ≠ l.writer.currentFileId →
      Sealed crc (fs.bytes i))
    (hactive : Readable crc (fs.bytes l.writer.file)) (hindex : l.index.NoneOf id)
    (hi : l.readers[id]? = some i) (hid : id ≠ l.writer.currentFileId)
    (hh : fs.lookup (.hint id) = some h) (hbad : ¬ ValidHint crc id (fs.bytes h)) :
    ∃ l₁ l₂, (storeNames.replay crc l.readers.toList l fs).result = .ok l₁ ∧
      (storeNames.replay crc l.readers.toList l (fs.unlink (.hint id))).result = .ok l₂ ∧
      (storeNames.replay crc l.readers.toList l fs).after.lookup (.hint id) = none ∧
      l₁.readers = l₂.readers ∧ l₁.writer = l₂.writer ∧
      (l₁.index = l₂.index ↔ ∀ k ∈ (hintEntries crc id (fs.bytes h)).map Prod.fst,
        (∃ c ∈ recordsOf crc (fs.bytes i), c.getKey = k) ∨
          ∃ f ∈ l.readers.toList, id < f.1 ∧ Touches crc fs l.writer.currentFileId f k) := by
  obtain ⟨front, hsplit, hfront, hdistinct⟩ := toList_split hcur hmax
  have hmem : (id, i) ∈ front := by
    have hmem : (id, i) ∈ l.readers.toList :=
      Std.TreeMap.mem_toList_iff_getElem?_eq_some.mpr hi
    rw [hsplit] at hmem
    refine (List.mem_append.mp hmem).resolve_right fun hlast => ?_
    exact hid (Prod.mk.inj (List.mem_singleton.mp hlast)).1
  obtain ⟨pre, post, rfl⟩ := List.append_of_mem hmem
  have hserves : hintServes crc fs id = false := by
    simp only [hintServes, hh]
    exact Bool.eq_false_iff.mpr fun hclean => hbad (clean_iff_validHint.mp hclean)
  have hne : ∀ f ∈ pre ++ (id, i) :: post, f.1 ≠ l.writer.currentFileId := fun f hf => (hfront f hf).1
  have hseal : ∀ f ∈ pre ++ (id, i) :: post, Sealed crc (fs.bytes f.2) := fun f hf =>
    hsealed f.1 f.2 (hfront f hf).2 (hfront f hf).1
  obtain ⟨hres, -, hgone⟩ := replay_eq hne hseal hdistinct hactive
  have hseal' : ∀ f ∈ pre ++ (id, i) :: post, Sealed crc ((fs.unlink (.hint id)).bytes f.2) := hseal
  have hres' := (replay_eq hne hseal' hdistinct hactive).1
  -- the files stand in the order of their ids
  obtain ⟨hbefore, hafter⟩ : (∀ f ∈ pre, f.1 < id) ∧ ∀ f ∈ post, id < f.1 := by
    have hord := l.readers.ordered_keys_toList
    rw [hsplit] at hord
    obtain ⟨-, hrest, hcross⟩ := List.pairwise_append.mp (List.pairwise_append.mp hord).1
    exact ⟨fun f hf => Nat.compare_eq_lt.mp (hcross f hf (id, i) List.mem_cons_self),
      fun f hf => Nat.compare_eq_lt.mp ((List.pairwise_cons.mp hrest).1 f hf)⟩
  have hentries : entriesOf crc fs id = hintEntries crc id (fs.bytes h) := by rw [entriesOf, hh]
  obtain ⟨hreaders, hwriter, hiff⟩ := Loader.afterAll_bad_hint (i := i) l
    (fun f hf => (hbefore f hf).ne)
    (fun f hf => ⟨(hafter f hf).ne', hne f (by simp [hf])⟩) hserves hindex
  rw [hsplit]
  refine ⟨_, _, hres, hres', hgone _ hmem hserves, hreaders, hwriter, hiff.trans ?_⟩
  rw [hentries]
  refine forall₂_congr fun k _ => ?_
  rw [or_assoc]
  refine or_congr_right ⟨?_, ?_⟩
  · rintro (⟨f, hf, ht⟩ | hk)
    · exact ⟨f, by simp [hf], hafter f hf, ht⟩
    · exact ⟨(l.writer.currentFileId, l.writer.file), by simp,
        lt_of_le_of_ne (hmax id i hi) hid, Or.inr ⟨by simp, hk⟩⟩
  · rintro ⟨f, hf, hlt, ht⟩
    rcases List.mem_append.mp hf with hf | hf
    · rcases List.mem_append.mp hf with hf | hf
      · exact absurd hlt (hbefore f hf).asymm
      · rcases List.mem_cons.mp hf with rfl | hf
        · exact absurd hlt (lt_irrefl _)
        · exact Or.inl ⟨f, hf, ht⟩
    · obtain rfl := List.mem_singleton.mp hf
      exact Or.inr (ht.resolve_left fun h => h.1 rfl).2

end Replay

/-- A sealed file with one record, its hint, and the active file. -/
def oneRecord (hint active : Bytes) : Fs FileName :=
  ((Fs.empty.put (.data 1) ((Command.set 5 (asBytes "a") (asBytes "1")).serialize crc32)).put
    (.hint 1) hint).put (.data 2) active

/-- A hint record that points a key at the record of the file, and one byte more. -/
def tornHint (key : String) : Bytes :=
  (⟨1, 5, 0, 27⟩ : IndexValue).serialize crc32 (asBytes key) ++ [0]

theorem tornHint_bad : ¬ ValidHint crc32 1 (tornHint "ghost") := by
  rw [← clean_iff_validHint]
  decide +kernel

/-- The hint names a key that its data file does not have; the active file has it. -/
theorem bad_hint_leaves_no_trace_set_later : ∃ l₁ l₂,
    (storeNames.replay crc32 [(1, 0), (2, 2)]
      ⟨((∅ : Std.TreeMap ℕ Inode).insert 1 0).insert 2 2, Index.empty, ⟨2, 2, 0, 0, 0, 0⟩⟩
      (oneRecord (tornHint "ghost")
        ((Command.set 6 (asBytes "ghost") (asBytes "2")).serialize crc32))).result = .ok l₁ ∧
    (storeNames.replay crc32 [(1, 0), (2, 2)]
      ⟨((∅ : Std.TreeMap ℕ Inode).insert 1 0).insert 2 2, Index.empty, ⟨2, 2, 0, 0, 0, 0⟩⟩
      ((oneRecord (tornHint "ghost")
        ((Command.set 6 (asBytes "ghost") (asBytes "2")).serialize crc32)).unlink
          (.hint 1))).result = .ok l₂ ∧
    l₁.index = l₂.index := by
  set readers := ((∅ : Std.TreeMap ℕ Inode).insert 1 0).insert 2 2 with hreaders
  set fs := oneRecord (tornHint "ghost")
    ((Command.set 6 (asBytes "ghost") (asBytes "2")).serialize crc32) with hfs
  have hread : ∀ id i, readers[id]? = some i → id = 2 ∧ i = 2 ∨ id = 1 ∧ i = 0 := by
    intro id i hi
    rw [hreaders, Std.TreeMap.getElem?_insert, Std.TreeMap.getElem?_insert] at hi
    split at hi
    · rename_i h2
      exact Or.inl ⟨(Nat.compare_eq_eq.mp h2).symm, (Option.some.inj hi).symm⟩
    · split at hi
      · rename_i h1
        exact Or.inr ⟨(Nat.compare_eq_eq.mp h1).symm, (Option.some.inj hi).symm⟩
      · simp at hi
  have hmax : ∀ id i, readers[id]? = some i → id ≤ 2 := by
    intro id i hi
    rcases hread id i hi with h | h <;> omega
  have hsealed : ∀ id i, readers[id]? = some i → id ≠ 2 → Sealed crc32 (fs.bytes i) := by
    intro id i hi hne
    obtain ⟨-, rfl⟩ := (hread id i hi).resolve_left fun h => hne h.1
    exact ⟨[.set 5 (asBytes "a") (asBytes "1")], by decide +kernel, by decide⟩
  have hindex : Index.empty.NoneOf 1 := fun k e h => by rw [Index.get_empty] at h; cases h
  have hhint : fs.bytes 1 = tornHint "ghost" := by decide +kernel
  obtain ⟨l₁, l₂, h₁, h₂, -, -, -, hiff⟩ := bad_hint_leaves_no_trace
    ⟨readers, Index.empty, ⟨2, 2, 0, 0, 0, 0⟩⟩ (i := 0) (h := 1) (by decide)
    hmax hsealed
    ⟨[.set 6 (asBytes "ghost") (asBytes "2")], [], by decide +kernel, Or.inl rfl, by decide⟩ hindex
    (by decide) (by decide) (by decide) (by rw [hhint]; exact tornHint_bad)
  exact ⟨l₁, l₂, h₁, h₂, hiff.mpr (by decide +kernel)⟩

/-- A hint record for a key that no data file has stays in the index. -/
theorem ghost_hint_shows : ∃ s s',
    ¬ ValidHint crc32 1 (tornHint "ghost") ∧
    (oneRecord (tornHint "ghost") []).read (.hint 1) = some (tornHint "ghost") ∧
    reopen crc32 [.lock, .data 1, .hint 1, .data 2] (oneRecord (tornHint "ghost") []) = some s ∧
    reopen crc32 [.lock, .data 1, .data 2] ((oneRecord (tornHint "ghost") []).unlink (.hint 1)) =
      some s' ∧
    s.get crc32 "ghost" = some (.ok (some "1")) ∧ s'.get crc32 "ghost" = some (.ok none) := by
  have hrun : (reopen crc32 [.lock, .data 1, .hint 1, .data 2] (oneRecord (tornHint "ghost") [])).any
      fun s => s.get crc32 "ghost" = some (.ok (some "1")) := by decide +kernel
  have hrun' : (reopen crc32 [.lock, .data 1, .data 2]
      ((oneRecord (tornHint "ghost") []).unlink (.hint 1))).any
      fun s => s.get crc32 "ghost" = some (.ok none) := by decide +kernel
  obtain ⟨s, hs, hget⟩ := (Option.any_eq_true ..).mp hrun
  obtain ⟨s', hs', hget'⟩ := (Option.any_eq_true ..).mp hrun'
  exact ⟨s, s', tornHint_bad, by decide +kernel, hs, hs', of_decide_eq_true hget,
    of_decide_eq_true hget'⟩

end Bitcask
