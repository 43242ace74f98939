import Bitcask.Storage.Hints
import Bitcask.Storage.OpenAny

/-!
# The active file, byte by byte

What `open` makes of an active file with arbitrary contents.

1. `open_only_file`: a sequence of records that decode, with at most a torn tail, is cut to the
   records and indexed; anything else makes `open` fail and stays as it was.
2. `damage_fails_open`: a record whose bytes were altered makes `open` fail exactly if the length
   fields lead from it to a frame that ends inside the file and does not decode (`Broken`). A frame is
   cut out by the length field before any checksum is looked at, so a length that reaches beyond the
   end of the file passes for a torn tail (`altered_length_truncates`).
-/

namespace Bitcask

open LittleEndian FileSystem CrashHoare

variable (crc : Bytes → UInt32)

/-- Complete records that all decode. -/
def RecordSequence (bs : List Bytes) : Prop :=
  ∀ b ∈ bs, IsFrame b ∧ ∃ r, Command.deserialize crc b = .ok r

/-- The entry of the last record of the key, which is a `Set`. -/
def LastSet (fileId : ℕ) (bs : List Bytes) (k : Bytes) (e : IndexValue) : Prop :=
  ∃ pre b post ts v n, bs = pre ++ b :: post ∧ Command.deserialize crc b = .ok (.set ts k v, n) ∧
    (∀ x ∈ post, ∀ c m, Command.deserialize crc x = .ok (c, m) → c.getKey ≠ k) ∧
    e = ⟨fileId, ts, pre.flatten.length, b.length⟩

section Sequence

variable {crc} {bs : List Bytes} {cs : List Command} {fileId : ℕ}

theorem recordSequence_map (hfits : ∀ c ∈ cs, c.Fits) :
    RecordSequence crc (cs.map (Command.serialize crc)) := by
  intro b hb
  obtain ⟨c, hc, rfl⟩ := List.mem_map.mp hb
  have hd := Command.deserialize_serialize crc (hfits c hc) []
  rw [List.append_nil] at hd
  exact ⟨IsFrame.serialize crc (hfits c hc), _, hd⟩

theorem RecordSequence.eq_map (h : RecordSequence crc bs) :
    ∃ cs : List Command, bs = cs.map (Command.serialize crc) ∧ ∀ c ∈ cs, c.Fits := by
  induction bs with
  | nil => exact ⟨[], rfl, by simp⟩
  | cons b bs ih =>
    obtain ⟨cs, hcs, hfits⟩ := ih fun x hx => h x (List.mem_cons_of_mem _ hx)
    obtain ⟨hb, ⟨c, n⟩, hd⟩ := h b List.mem_cons_self
    obtain ⟨hfit, heq⟩ := hb.eq_serialize hd
    refine ⟨c :: cs, by rw [List.map_cons, ← hcs, ← heq], fun d hd => ?_⟩
    rcases List.mem_cons.mp hd with rfl | hd
    · exact hfit
    · exact hfits d hd

/-- A readable file, in terms of the bytes of its records. -/
theorem readable_iff {b : Bytes} : Readable crc b ↔
    ∃ bs t, b = bs.flatten ++ t ∧ RecordSequence crc bs ∧ (t = [] ∨ Torn t) := by
  constructor
  · rintro ⟨cs, t, rfl, ht, hfits⟩
    exact ⟨cs.map (Command.serialize crc), t, by rw [encodeAll_eq_flatten],
      recordSequence_map hfits, ht⟩
  · rintro ⟨bs, t, rfl, hbs, ht⟩
    obtain ⟨cs, rfl, hfits⟩ := hbs.eq_map
    exact ⟨cs, t, by rw [encodeAll_eq_flatten], ht, hfits⟩

/-- One record of the file decides about its key. -/
theorem get_loadCommand (off : ℕ) (index : Index) (c : Command) (k : Bytes) (e : IndexValue) :
    (loadCommand crc fileId off index c).get k = some e ↔
      (∃ ts v, c = .set ts k v ∧ e = ⟨fileId, ts, off, (c.serialize crc).length⟩) ∨
        c.getKey ≠ k ∧ index.get k = some e := by
  by_cases hk : c.getKey = k
  · cases c with
    | set ts key value =>
      obtain rfl : key = k := hk
      simp only [loadCommand, Index.get_insert_self, Command.getKey]
      constructor
      · intro he
        exact Or.inl ⟨ts, value, rfl, (Option.some.inj he).symm⟩
      · rintro (⟨ts', v, hc, rfl⟩ | ⟨hne, -⟩)
        · obtain ⟨rfl, -, rfl⟩ := Command.set.inj hc
          rfl
        · exact absurd rfl hne
    | rm ts key =>
      obtain rfl : key = k := hk
      simp [loadCommand, Index.get_remove_self, Command.getKey]
  · have hget : (loadCommand crc fileId off index c).get k = index.get k := by
      cases c with
      | set ts key value => exact Index.get_insert_ne (Ne.symm hk)
      | rm ts key => exact Index.get_remove_ne (Ne.symm hk)
    rw [hget]
    constructor
    · exact fun he => Or.inr ⟨hk, he⟩
    · rintro (⟨ts, v, rfl, -⟩ | ⟨-, he⟩)
      · exact absurd rfl hk
      · exact he

/-- The index of a file holds the last `Set` of each key that no `Rm` follows. -/
theorem get_loadAll (cs : List Command) (k : Bytes) (e : IndexValue) :
    (loadAll crc fileId 0 cs Index.empty).get k = some e ↔
      ∃ pre ts v post, cs = pre ++ .set ts k v :: post ∧ (∀ c ∈ post, c.getKey ≠ k) ∧
        e = ⟨fileId, ts, (encodeAll crc pre).length,
          ((Command.set ts k v).serialize crc).length⟩ := by
  induction cs using List.reverseRecOn with
  | nil => simp [loadAll, Index.get_empty]
  | append_singleton cs c ih =>
    rw [loadAll_append, Nat.zero_add]
    show (loadCommand crc fileId _ _ c).get k = some e ↔ _
    rw [get_loadCommand, ih]
    constructor
    · rintro (⟨ts, v, rfl, rfl⟩ | ⟨hk, pre, ts, v, post, rfl, hpost, rfl⟩)
      · exact ⟨cs, ts, v, [], rfl, by simp, rfl⟩
      · refine ⟨pre, ts, v, post ++ [c], by simp, fun d hd => ?_, rfl⟩
        rcases List.mem_append.mp hd with hd | hd
        · exact hpost d hd
        · rwa [List.mem_singleton.mp hd]
    · rintro ⟨pre, ts, v, post, heq, hpost, rfl⟩
      rcases List.eq_nil_or_concat post with rfl | ⟨post, d, rfl⟩
      · obtain ⟨rfl, hc⟩ := List.append_inj' heq rfl
        obtain rfl := (List.cons.inj hc).1
        exact Or.inl ⟨ts, v, rfl, rfl⟩
      · have heq' : cs ++ [c] = (pre ++ .set ts k v :: post) ++ [d] := by
          rw [heq]
          simp
        obtain ⟨rfl, hc⟩ := List.append_inj' heq' rfl
        obtain rfl := (List.cons.inj hc).1
        exact Or.inr ⟨hpost c (by simp), pre, ts, v, post, rfl,
          fun x hx => hpost x (by simp [hx]), rfl⟩

/-- The same, in terms of the bytes of the records. -/
theorem lastSet_map (hfits : ∀ c ∈ cs, c.Fits) (k : Bytes) (e : IndexValue) :
    LastSet crc fileId (cs.map (Command.serialize crc)) k e ↔
      ∃ pre ts v post, cs = pre ++ .set ts k v :: post ∧ (∀ c ∈ post, c.getKey ≠ k) ∧
        e = ⟨fileId, ts, (encodeAll crc pre).length,
          ((Command.set ts k v).serialize crc).length⟩ := by
  have hdec : ∀ c ∈ cs, ∀ d n, Command.deserialize crc (c.serialize crc) = .ok (d, n) → d = c := by
    intro c hc d n hd
    have hd' := Command.deserialize_serialize crc (hfits c hc) []
    rw [List.append_nil, hd] at hd'
    exact (Prod.mk.inj (Except.ok.inj hd')).1
  constructor
  · rintro ⟨pre, b, post, ts, v, n, heq, hb, hpost, rfl⟩
    obtain ⟨pre, rest, rfl, rfl, hrest⟩ := List.map_eq_append_iff.mp heq
    obtain ⟨c, post, rfl, rfl, rfl⟩ := List.map_eq_cons_iff.mp hrest
    obtain rfl := hdec c (by simp) _ _ hb
    refine ⟨pre, ts, v, post, rfl, fun d hd => ?_, by rw [encodeAll_eq_flatten]⟩
    have hd' := Command.deserialize_serialize crc (hfits d (by simp [hd])) []
    rw [List.append_nil] at hd'
    exact hpost _ (List.mem_map_of_mem hd) _ _ hd'
  · rintro ⟨pre, ts, v, post, rfl, hpost, rfl⟩
    have hd := Command.deserialize_serialize crc (hfits (.set ts k v) (by simp)) []
    rw [List.append_nil] at hd
    refine ⟨pre.map (Command.serialize crc), _, post.map (Command.serialize crc), ts, v, _,
      by simp, hd, fun x hx c m hx' => ?_, by rw [encodeAll_eq_flatten]⟩
    obtain ⟨d, hd, rfl⟩ := List.mem_map.mp hx
    rw [hdec d (by simp [hd]) c m hx']
    exact hpost d hd

end Sequence

/-! ## A directory with one data file -/

section OnlyFile

variable {crc} {fs₀ : Fs FileName} {listing : List FileName} (now : ℕ) {id : ℕ} {i : Inode}
  {cs : List Command} {t : Bytes}

/-- The only data file is the active one, and nothing else is replayed. -/
theorem Elected.only {fs₂ : Fs FileName} {readers : Std.TreeMap ℕ Inode} {cur : ℕ} {file : Inode}
    (he : Elected fs₀ fs₂ readers cur file) (hi : fs₀.lookup (.data id) = some i)
    (honly : ∀ id', id' ≠ id → fs₀.lookup (.data id') = none) :
    cur = id ∧ file = i ∧ readers.toList = [(id, i)] ∧ fs₂.bytes i = fs₀.bytes i := by
  have hnames : ∀ {id' i'}, fs₂.lookup (.data id') = some i' → id' = id ∧ i' = i := by
    intro id' i' hi'
    rcases he.opening.fresh hi' with h₀ | ⟨-, hnone, -⟩
    · have hid : id' = id := by
        by_contra hne
        rw [honly id' hne] at h₀; cases h₀
      rw [hid, hi] at h₀
      exact ⟨hid, (Option.some.inj h₀).symm⟩
    · rw [hnone] at hi; cases hi
  obtain ⟨rfl, rfl⟩ := hnames he.current
  obtain ⟨front, hfront, hfiles, -⟩ := he.toList
  have hnil : front = [] := by
    refine List.eq_nil_iff_forall_not_mem.mpr fun f hf => ?_
    obtain ⟨hne, -, hf'⟩ := hfiles f hf
    exact hne (hnames hf').1
  rw [hnil, List.nil_append] at hfront
  exact ⟨rfl, rfl, hfront, (he.opening.data hi).2.1⟩

theorem openStore_only (hlist : (fs₀.create .lock).Lists listing)
    (hmarker : MarkerOk (fs₀.read .lock)) (hi : fs₀.lookup (.data id) = some i)
    (honly : ∀ id', id' ≠ id → fs₀.lookup (.data id') = none)
    (hb : fs₀.bytes i = encodeAll crc cs ++ t) (ht : t = [] ∨ Torn t) (hfits : ∀ c ∈ cs, c.Fits) :
    ∃ s, (openStore crc listing now fs₀).result = .ok s ∧
      (openStore crc listing now fs₀).after = s.fs ∧ s.fs.lookup (.data id) = some i ∧
      s.fs.bytes i = encodeAll crc cs ∧ s.writer.currentFileId = id ∧ s.writer.file = i ∧
      s.writer.offset = (encodeAll crc cs).length ∧
      s.index = loadAll crc id 0 cs Index.empty := by
  have hopen : Triple (· = fs₀) (openStore crc listing now)
      (fun s fs => fs = s.fs ∧ s.fs.lookup (.data id) = some i ∧ s.fs.bytes i = encodeAll crc cs ∧
        s.writer.currentFileId = id ∧ s.writer.file = i ∧
        s.writer.offset = (encodeAll crc cs).length ∧ s.index = loadAll crc id 0 cs Index.empty)
      (fun _ _ => False) (fun _ => True) := by
    refine openStore_rule hlist (fun _ _ => trivial) (fun _ _ _ _ h => h hmarker) ?_
    intro fs₂ readers cur file he
    obtain ⟨rfl, rfl, hfiles, hbytes⟩ := he.only hi honly
    rw [hfiles]
    obtain ⟨hres, hafter⟩ := replay_last
      (l := ⟨readers, Index.empty, ⟨cur, file, 0, 0, now, 0⟩⟩) (hbytes.trans hb) ht hfits
    intro s hs
    subst hs
    refine ⟨fun _ _ => trivial, ?_⟩
    rw [hres, hafter]
    refine ⟨rfl, ?_, ?_, rfl, rfl, rfl, rfl⟩
    · split <;> exact he.current
    · show Fs.bytes (if t = [] then _ else _) file = _
      split
      · rename_i hnil
        rw [hbytes, hb, hnil, List.append_nil]
      · rw [Fs.bytes_setLen_self, hbytes, hb, List.take_left]
  have hrun := (hopen fs₀ rfl).2
  cases hres : (openStore crc listing now fs₀).result with
  | error e => rw [hres] at hrun; exact hrun.elim
  | ok s => rw [hres] at hrun; exact ⟨s, rfl, hrun⟩

/-- Whatever the directory holds, `open` leaves an active file it cannot read as it was. -/
theorem openStore_unreadable (hlist : (fs₀.create .lock).Lists listing)
    (hi : fs₀.lookup (.data id) = some i)
    (hmax : ∀ id', fs₀.lookup (.data id') ≠ none → id' ≤ id) (hbad : ¬ Readable crc (fs₀.bytes i)) :
    ∃ e, (openStore crc listing now fs₀).result = .error (.error e) ∧
      (openStore crc listing now fs₀).after.lookup (.data id) = some i ∧
      (openStore crc listing now fs₀).after.bytes i = fs₀.bytes i := by
  have hrun := (openStore_any crc now hlist fs₀ rfl).2
  cases hres : (openStore crc listing now fs₀).result with
  | ok s =>
    rw [hres] at hrun
    obtain ⟨-, ho⟩ := hrun
    obtain ⟨hd, -, hread⟩ := ho.data hi
    refine absurd (hread ?_) hbad
    refine le_antisymm (ho.le_current hd) (hmax _ ?_)
    rcases ho.fresh ho.current with h₀ | ⟨-, hnone⟩
    · rw [h₀]; simp
    · rw [hnone] at hi; cases hi
  | error e =>
    rw [hres] at hrun
    obtain ⟨hpanic, ho⟩ := hrun
    obtain ⟨hd, hb, -⟩ := ho.data hi
    cases e with
    | panic => exact absurd rfl hpanic
    | error e => exact ⟨e, rfl, hd, hb⟩

/-- `open` of a directory with one data file, for every contents of that file. -/
theorem open_only_file (hlist : (fs₀.create .lock).Lists listing)
    (hmarker : MarkerOk (fs₀.read .lock)) (hi : fs₀.lookup (.data id) = some i)
    (honly : ∀ id', id' ≠ id → fs₀.lookup (.data id') = none) :
    (∀ bs t, fs₀.bytes i = bs.flatten ++ t → RecordSequence crc bs → (t = [] ∨ Torn t) →
      ∃ s, (openStore crc listing now fs₀).result = .ok s ∧
        (openStore crc listing now fs₀).after = s.fs ∧ s.fs.lookup (.data id) = some i ∧
        s.fs.bytes i = bs.flatten ∧ s.writer.currentFileId = id ∧ s.writer.file = i ∧
        s.writer.offset = bs.flatten.length ∧
        ∀ k e, s.index.get k = some e ↔ LastSet crc id bs k e) ∧
    ((¬ ∃ bs t, fs₀.bytes i = bs.flatten ++ t ∧ RecordSequence crc bs ∧ (t = [] ∨ Torn t)) →
      ∃ e, (openStore crc listing now fs₀).result = .error (.error e) ∧
        (openStore crc listing now fs₀).after.lookup (.data id) = some i ∧
        (openStore crc listing now fs₀).after.bytes i = fs₀.bytes i) := by
  constructor
  · intro bs t hb hbs ht
    obtain ⟨cs, rfl, hfits⟩ := hbs.eq_map
    rw [← encodeAll_eq_flatten] at hb ⊢
    obtain ⟨s, hres, hafter, hd, hbytes, hcur, hfile, hoff, hindex⟩ :=
      openStore_only now hlist hmarker hi honly hb ht hfits
    refine ⟨s, hres, hafter, hd, hbytes, hcur, hfile, hoff, fun k e => ?_⟩
    rw [hindex, get_loadAll, lastSet_map hfits]
  · intro hbad
    refine openStore_unreadable now hlist hi (fun id' hne => ?_) fun hread => hbad (readable_iff.mp hread)
    by_contra hlt
    exact hne (honly id' (by omega))

end OnlyFile

/-- A set, a set of another key and a remove of the first. -/
def threeRecords : List Command :=
  [.set 1 (asBytes "a") (asBytes "x"), .set 2 (asBytes "b") (asBytes "y"), .rm 3 (asBytes "a")]

/-- A directory with one data file. -/
def oneFile (b : Bytes) : Fs FileName := Fs.empty.put (.data 5) b

theorem lists_oneFile (b : Bytes) : ((oneFile b).create .lock).Lists [.lock, .data 5] :=
  Fs.lists_of_keys (by decide) (by rfl)

theorem open_only_file_torn : ∃ s,
    (openStore crc32 [.lock, .data 5] 0 (oneFile (encodeAll crc32 threeRecords ++ [1, 2]))).result =
      .ok s ∧
    s.fs.bytes 0 = encodeAll crc32 threeRecords ∧
    s.writer.offset = (encodeAll crc32 threeRecords).length ∧
    ∀ k e, s.index.get k = some e ↔
      LastSet crc32 5 (threeRecords.map (Command.serialize crc32)) k e := by
  have honly : ∀ id', id' ≠ 5 →
      (oneFile (encodeAll crc32 threeRecords ++ [1, 2])).lookup (.data id') = none := by
    intro id' hne
    exact Fs.lookup_create_ne fun he => hne (FileName.data.inj he)
  obtain ⟨s, hres, -, -, hb, -, -, hoff, hindex⟩ := (open_only_file 0 (lists_oneFile _) (Or.inl rfl)
    (i := 0) (by decide +kernel) honly).1 (threeRecords.map (Command.serialize crc32)) [1, 2]
    (by decide +kernel) (recordSequence_map (by decide)) (Or.inr (by decide))
  rw [← encodeAll_eq_flatten] at hb hoff
  exact ⟨s, hres, hb, hoff, hindex⟩

/-! ## Damage before the last record -/

section Damage

variable {crc} {fs₀ : Fs FileName} {listing : List FileName} {id : ℕ} {i : Inode}
  {pre post : List Command} {c : Command} {altered : Bytes}

/-- A readable file that starts with a frame starts with a record. -/
theorem Readable.frame {f rest : Bytes} (hf : IsFrame f) (h : Readable crc (f ++ rest)) :
    (∃ c : Command, c.Fits ∧ f = c.serialize crc) ∧ Readable crc rest := by
  obtain ⟨cs, t, heq, ht, hcs⟩ := h
  cases cs with
  | nil => exact absurd (heq.symm ▸ ht) (hf.not_torn rest)
  | cons c cs =>
    have hc := hcs c List.mem_cons_self
    rw [encodeAll_cons, List.append_assoc] at heq
    obtain ⟨rfl, rfl⟩ := hf.eq_of_append (IsFrame.serialize crc hc) heq
    exact ⟨⟨c, hc, rfl⟩, cs, t, rfl, ht, fun x hx => hcs x (List.mem_cons_of_mem _ hx)⟩

/-- The rest of a readable file after its first records is readable. -/
theorem Readable.drop {rest : Bytes} (hfits : ∀ c ∈ pre, c.Fits)
    (h : Readable crc (encodeAll crc pre ++ rest)) : Readable crc rest := by
  induction pre with
  | nil => exact h
  | cons d pre ih =>
    rw [encodeAll_cons, List.append_assoc] at h
    exact ih (fun x hx => hfits x (List.mem_cons_of_mem _ hx))
      (h.frame (IsFrame.serialize crc (hfits d List.mem_cons_self))).2

theorem Readable.cons {rest : Bytes} (hc : c.Fits) (h : Readable crc rest) :
    Readable crc (c.serialize crc ++ rest) := by
  obtain ⟨cs, t, rfl, ht, hfits⟩ := h
  refine ⟨c :: cs, t, by rw [encodeAll_cons, List.append_assoc], ht, fun d hd => ?_⟩
  rcases List.mem_cons.mp hd with rfl | hd
  · exact hc
  · exact hfits d hd

theorem Readable.append {rest : Bytes} (hfits : ∀ c ∈ pre, c.Fits) (h : Readable crc rest) :
    Readable crc (encodeAll crc pre ++ rest) := by
  induction pre with
  | nil => exact h
  | cons d pre ih =>
    rw [encodeAll_cons, List.append_assoc]
    exact (ih fun x hx => hfits x (List.mem_cons_of_mem _ hx)).cons (hfits d List.mem_cons_self)

/-- Cut into frames by the length fields, the bytes start with frames that decode, and the next frame
is complete and does not. -/
def Broken (crc : Bytes → UInt32) (b : Bytes) : Prop :=
  ∃ bs w rest, b = bs.flatten ++ (w ++ rest) ∧ RecordSequence crc bs ∧ IsFrame w ∧
    ∃ e, Command.deserialize crc w = .error e

/-- The bytes can be read up to a torn tail, or they are broken. -/
theorem not_readable_iff {b : Bytes} : ¬ Readable crc b ↔ Broken crc b := by
  constructor
  · -- by induction on what is left, frame by frame
    induction hn : b.length using Nat.strong_induction_on generalizing b with
    | _ n ih =>
      intro hb
      rcases frame_cases b with rfl | ht | ⟨f, rest, rfl, hf⟩
      · exact absurd ⟨[], [], rfl, Or.inl rfl, by simp⟩ hb
      · exact absurd ⟨[], b, rfl, Or.inr ht, by simp⟩ hb
      · cases hd : Command.deserialize crc f with
        | error e => exact ⟨[], f, rest, rfl, by simp [RecordSequence], hf, e, hd⟩
        | ok r =>
          obtain ⟨hfit, rfl⟩ := hf.eq_serialize hd
          have hlt : rest.length < n := by
            have hpos := List.length_pos_iff.mpr hf.ne_nil
            rw [← hn, List.length_append]
            omega
          obtain ⟨bs, w, rest', rfl, hbs, hw, he⟩ := ih _ hlt rfl fun h => hb (h.cons hfit)
          refine ⟨r.1.serialize crc :: bs, w, rest', by simp, fun x hx => ?_, hw, he⟩
          rcases List.mem_cons.mp hx with rfl | hx
          · exact ⟨hf, r, hd⟩
          · exact hbs x hx
  · rintro ⟨bs, w, rest, rfl, hbs, hw, e, he⟩ hread
    obtain ⟨cs, rfl, hfits⟩ := hbs.eq_map
    rw [← encodeAll_eq_flatten] at hread
    obtain ⟨⟨d, hd, rfl⟩, -⟩ := (hread.drop hfits).frame hw
    have hok := Command.deserialize_serialize crc hd []
    rw [List.append_nil, he] at hok
    cases hok

/-- `open` succeeds on files of records, of which the active one may have a torn tail. What the hints
hold does not matter. -/
theorem openStore_ok (now : ℕ) (hlist : (fs₀.create .lock).Lists listing)
    (hmarker : MarkerOk (fs₀.read .lock)) (hi : fs₀.lookup (.data id) = some i)
    (hmax : ∀ id', fs₀.lookup (.data id') ≠ none → id' ≤ id)
    (hsealed : ∀ id' i', fs₀.lookup (.data id') = some i' → id' ≠ id → Sealed crc (fs₀.bytes i'))
    (hread : Readable crc (fs₀.bytes i)) :
    ∃ s, (openStore crc listing now fs₀).result = .ok s := by
  have hopen : Triple (· = fs₀) (openStore crc listing now) (fun _ _ => True) (fun _ _ => False)
      (fun _ => True) := by
    refine openStore_rule hlist (fun _ _ => trivial) (fun _ _ _ _ h => h hmarker) ?_
    intro fs₂ readers cur file he
    obtain ⟨front, hfront, hfiles, hdistinct⟩ := he.toList
    obtain ⟨hi₂, hbytes, -⟩ := he.opening.data hi
    -- the active file is the one with the highest id
    obtain rfl : cur = id := by
      refine le_antisymm ?_ (he.le_current hi₂)
      rcases he.opening.fresh he.current with hc | ⟨-, hnone, -⟩
      · exact hmax cur (by rw [hc]; simp)
      · rw [hnone] at hi
        cases hi
    obtain rfl := Option.some.inj (hi₂.symm.trans he.current)
    have hseals : ∀ f ∈ front, Sealed crc (fs₂.bytes f.2) := by
      intro f hf
      have h₀ := he.sealed_old (hfiles f hf).2.2 (hfiles f hf).1
      rw [(he.opening.data h₀).2.1]
      exact hsealed _ _ h₀ (hfiles f hf).1
    obtain ⟨hres, -⟩ := replay_eq (l := ⟨readers, Index.empty, ⟨cur, i, 0, 0, now, 0⟩⟩)
      (fun f hf => (hfiles f hf).1) hseals hdistinct (hbytes ▸ hread)
    intro s hs
    subst hs
    refine ⟨fun _ _ => trivial, ?_⟩
    rw [hfront, hres]
    trivial
  have hrun := (hopen fs₀ rfl).2
  cases hres : (openStore crc listing now fs₀).result with
  | error e => rw [hres] at hrun; exact hrun.elim
  | ok s => exact ⟨s, rfl⟩

/-- Any bytes in the place of a record of the active file: `open` fails and leaves the file alone
exactly if these bytes and those behind them are broken. -/
theorem damage_fails_open (now : ℕ) (hlist : (fs₀.create .lock).Lists listing)
    (hmarker : MarkerOk (fs₀.read .lock)) (hi : fs₀.lookup (.data id) = some i)
    (hmax : ∀ id', fs₀.lookup (.data id') ≠ none → id' ≤ id)
    (hsealed : ∀ id' i', fs₀.lookup (.data id') = some i' → id' ≠ id → Sealed crc (fs₀.bytes i'))
    (hpre : ∀ d ∈ pre, d.Fits)
    (hbytes : fs₀.bytes i = encodeAll crc pre ++ (altered ++ encodeAll crc post)) :
    (∃ e, (openStore crc listing now fs₀).result = .error (.error e) ∧
      (openStore crc listing now fs₀).after.lookup (.data id) = some i ∧
      (openStore crc listing now fs₀).after.bytes i = fs₀.bytes i) ↔
    Broken crc (altered ++ encodeAll crc post) := by
  rw [← not_readable_iff]
  constructor
  · rintro ⟨e, he, -⟩ hread
    obtain ⟨s, hs⟩ := openStore_ok now hlist hmarker hi hmax hsealed
      (by rw [hbytes]; exact hread.append hpre)
    rw [hs] at he
    cases he
  · intro hbad
    refine openStore_unreadable now hlist hi hmax fun hread => hbad ?_
    rw [hbytes] at hread
    exact hread.drop hpre

end Damage

/-- A record with one byte overwritten, and an intact record after it. -/
def damaged (offset : ℕ) (byte : UInt8) : Bytes :=
  ((Command.set 1 (asBytes "a") (asBytes "x")).serialize crc32).set offset byte ++
    encodeAll crc32 [.set 2 (asBytes "b") (asBytes "y")]

/-- The byte of the value is overwritten. -/
theorem damage_fails_open_value : ∃ e,
    (openStore crc32 [.lock, .data 5] 0 (oneFile (damaged 26 0))).result = .error (.error e) ∧
    (openStore crc32 [.lock, .data 5] 0 (oneFile (damaged 26 0))).after.lookup (.data 5) = some 0 ∧
    (openStore crc32 [.lock, .data 5] 0 (oneFile (damaged 26 0))).after.bytes 0 = damaged 26 0 := by
  have honly : ∀ id', id' ≠ 5 → (oneFile (damaged 26 0)).lookup (.data id') = none := fun id' hne =>
    Fs.lookup_create_ne fun he => hne (FileName.data.inj he)
  have hmax : ∀ id', (oneFile (damaged 26 0)).lookup (.data id') ≠ none → id' ≤ 5 := by
    intro id' hne
    by_contra hgt
    exact hne (honly id' (by omega))
  have hsealed : ∀ id' i', (oneFile (damaged 26 0)).lookup (.data id') = some i' → id' ≠ 5 →
      Sealed crc32 ((oneFile (damaged 26 0)).bytes i') := by
    intro id' i' hi' hne
    rw [honly id' hne] at hi'
    cases hi'
  have hbytes : (oneFile (damaged 26 0)).bytes 0 = encodeAll crc32 [] ++
      (((Command.set 1 (asBytes "a") (asBytes "x")).serialize crc32).set 26 0 ++
        encodeAll crc32 [.set 2 (asBytes "b") (asBytes "y")]) := by decide +kernel
  refine (damage_fails_open 0 (lists_oneFile _) (Or.inl rfl) (by decide +kernel) hmax hsealed
    (List.forall_mem_nil _) hbytes).mpr ⟨[], ((Command.set 1 (asBytes "a")
      (asBytes "x")).serialize crc32).set 26 0, _, rfl, by simp [RecordSequence], by decide +kernel,
      .corruption, by decide +kernel⟩

/-- The length field of the first record is overwritten: `open` takes the whole file for a torn
tail, and the second record is gone. -/
theorem altered_length_truncates : ∃ s,
    ((Command.set 1 (asBytes "a") (asBytes "x")).serialize crc32).length =
      (((Command.set 1 (asBytes "a") (asBytes "x")).serialize crc32).set 4 255).length ∧
    Command.deserialize crc32 (encodeAll crc32 [.set 2 (asBytes "b") (asBytes "y")]) =
      .ok (.set 2 (asBytes "b") (asBytes "y"), 27) ∧
    reopen crc32 [.lock, .data 5] (oneFile (damaged 4 255)) = some s ∧
    s.fs.lookup (.data 5) = some 0 ∧ s.fs.bytes 0 = [] ∧ s.get crc32 "b" = some (.ok none) := by
  have hrun : (reopen crc32 [.lock, .data 5] (oneFile (damaged 4 255))).any fun s =>
      s.fs.lookup (.data 5) = some 0 ∧ s.fs.bytes 0 = [] ∧ s.get crc32 "b" = some (.ok none) := by
    decide +kernel
  obtain ⟨s, hs, hc⟩ := (Option.any_eq_true ..).mp hrun
  exact ⟨s, List.length_set.symm, by decide +kernel, hs, of_decide_eq_true hc⟩

end Bitcask
