import Bitcask.Storage.Records

/-!
# The shared structures agree

`Core recs fs rd index cur file` relates the directory, the files behind the read handles `rd`,
the index and the active file. `recs` assigns to each file the whole records it holds; the bytes
of a file are their encodings, followed, in the active file only, by what an unfinished write left.

Each lemma says that one kind of call keeps `Core`: a write to the active file (`Core.write`), a
write to a file no handle reads (`Core.append_other`), a new file of another kind
(`Core.create_other`), a new active file (`Core.rotate`), an unlink (`Core.unlink`), a merge output
that becomes a data file (`Core.rename`), and the updates of the index (`Core.insert`,
`Core.remove`).
-/

namespace Bitcask

open LittleEndian FileSystem

/-- The shared structures agree. -/
structure Core (crc : Bytes → UInt32) (recs : Inode → List Command) (fs : Fs FileName)
    (rd : ℕ → Option Inode) (index : Index) (cur : ℕ) (file : Inode) : Prop where
  /-- A data file in the directory has a handle. -/
  dir_rd : ∀ {id i}, fs.lookup (.data id) = some i → rd id = some i
  cur_dir : fs.lookup (.data cur) = some file
  rd_le : ∀ {id i}, rd id = some i → id ≤ cur
  rd_lt : ∀ {id i}, rd id = some i → i < fs.next
  /-- A file behind a handle has no other name. -/
  rd_name : ∀ {id i n}, rd id = some i → fs.lookup n = some i → n = .data id
  rd_inj : ∀ {id id' i}, rd id = some i → rd id' = some i → id = id'
  rd_bytes : ∀ {id i}, rd id = some i →
    ∃ t, fs.bytes i = encodeAll crc (recs i) ++ t ∧ (i ≠ file → t = [])
  rd_len : ∀ {id i}, rd id = some i → (fs.bytes i).length < maxFileLen
  fits : ∀ i, ∀ c ∈ recs i, c.Fits
  placed : index.Placed
  /-- An index entry is the position of a `Set` record of its key. -/
  entry : ∀ {k e}, index.get k = some e → ∃ i v, rd e.fileId = some i ∧
    At crc (recs i) e.offset (.set e.ts k v) ∧
    e.len = ((Command.set e.ts k v).serialize crc).length

/-- A handle of a map with one more handle is an old one or the new one. -/
theorem handle_cases {rd : ℕ → Option Inode} {id id' : ℕ} {i j : Inode}
    (h : Function.update rd id (some j) id' = some i) :
    (id' = id ∧ i = j) ∨ (id' ≠ id ∧ rd id' = some i) := by
  by_cases hid : id' = id
  · subst hid
    rw [Function.update_self, Option.some.injEq] at h
    exact Or.inl ⟨rfl, h.symm⟩
  · rw [Function.update_of_ne hid] at h
    exact Or.inr ⟨hid, h⟩

section Core

variable {crc : Bytes → UInt32} {recs : Inode → List Command} {fs fs' : Fs FileName}
  {rd : ℕ → Option Inode} {index : Index} {cur : ℕ} {file : Inode}

namespace Core

theorem rd_cur (h : Core crc recs fs rd index cur file) : rd cur = some file := h.dir_rd h.cur_dir

theorem file_lt (h : Core crc recs fs rd index cur file) : file < fs.next := h.rd_lt h.rd_cur

/-- A file behind the handle of another id than the current one is sealed. -/
theorem ne_file (h : Core crc recs fs rd index cur file) {id : ℕ} {i : Inode}
    (hi : rd id = some i) (hne : id ≠ cur) : i ≠ file := by
  rintro rfl
  exact hne (h.rd_inj hi h.rd_cur)

theorem sealed_bytes (h : Core crc recs fs rd index cur file) {id : ℕ} {i : Inode}
    (hi : rd id = some i) (hne : id ≠ cur) : fs.bytes i = encodeAll crc (recs i) := by
  obtain ⟨t, ht, hnil⟩ := h.rd_bytes hi
  rw [ht, hnil (h.ne_file hi hne), List.append_nil]

/-- A file with a name that is no data name has no handle. -/
theorem no_handle (h : Core crc recs fs rd index cur file) {n : FileName} {j : Inode}
    (hj : fs.lookup n = some j) (hn : ∀ id, n ≠ .data id) : ∀ id, rd id ≠ some j :=
  fun id hid => hn id (h.rd_name hid hj)

/-- A call that changes neither names nor contents. -/
theorem same (h : Core crc recs fs rd index cur file) (hl : ∀ n, fs'.lookup n = fs.lookup n)
    (hb : fs'.bytes = fs.bytes) (hn : fs'.next = fs.next) : Core crc recs fs' rd index cur file where
  dir_rd hi := h.dir_rd (hl _ ▸ hi)
  cur_dir := by rw [hl]; exact h.cur_dir
  rd_le := h.rd_le
  rd_lt hi := hn ▸ h.rd_lt hi
  rd_name hi hm := h.rd_name hi (hl _ ▸ hm)
  rd_inj := h.rd_inj
  rd_bytes hi := by rw [hb]; exact h.rd_bytes hi
  rd_len hi := by rw [hb]; exact h.rd_len hi
  fits := h.fits
  placed := h.placed
  entry := h.entry

theorem sync (h : Core crc recs fs rd index cur file) (j : Inode) :
    Core crc recs (fs.sync j) rd index cur file := h.same (fun _ => rfl) rfl rfl

/-- The records of a file without a handle do not matter. -/
theorem recs_other (h : Core crc recs fs rd index cur file) {j : Inode}
    (hj : ∀ id, rd id ≠ some j) {cs : List Command} (hcs : ∀ c ∈ cs, c.Fits) :
    Core crc (Function.update recs j cs) fs rd index cur file where
  dir_rd := h.dir_rd
  cur_dir := h.cur_dir
  rd_le := h.rd_le
  rd_lt := h.rd_lt
  rd_name := h.rd_name
  rd_inj := h.rd_inj
  rd_bytes hi := by
    rw [Function.update_of_ne (fun he => hj _ (he ▸ hi))]
    exact h.rd_bytes hi
  rd_len := h.rd_len
  fits i c hc := by
    by_cases hij : i = j
    · subst hij
      rw [Function.update_self] at hc
      exact hcs c hc
    · rw [Function.update_of_ne hij] at hc
      exact h.fits i c hc
  placed := h.placed
  entry hk := by
    obtain ⟨i, v, hi, hat, hlen⟩ := h.entry hk
    refine ⟨i, v, hi, ?_, hlen⟩
    rw [Function.update_of_ne (fun he => hj _ (he ▸ hi))]
    exact hat

/-- A write to a file without a handle. -/
theorem append_other (h : Core crc recs fs rd index cur file) {j : Inode}
    (hj : ∀ id, rd id ≠ some j) (b : Bytes) : Core crc recs (fs.append j b) rd index cur file where
  dir_rd := h.dir_rd
  cur_dir := h.cur_dir
  rd_le := h.rd_le
  rd_lt := h.rd_lt
  rd_name := h.rd_name
  rd_inj := h.rd_inj
  rd_bytes hi := by
    rw [Fs.bytes_append_ne (fun he => hj _ (he ▸ hi))]
    exact h.rd_bytes hi
  rd_len hi := by
    rw [Fs.bytes_append_ne (fun he => hj _ (he ▸ hi))]
    exact h.rd_len hi
  fits := h.fits
  placed := h.placed
  entry := h.entry

/-- A write to the active file that completes the records `cs`, of which there may be none. -/
theorem write (h : Core crc recs fs rd index cur file) {b t : Bytes} {cs : List Command}
    (hb : fs.bytes file ++ b = encodeAll crc (recs file ++ cs) ++ t)
    (hlen : (fs.bytes file ++ b).length < maxFileLen) (hcs : ∀ c ∈ cs, c.Fits) :
    Core crc (Function.update recs file (recs file ++ cs)) (fs.append file b) rd index cur file where
  dir_rd := h.dir_rd
  cur_dir := h.cur_dir
  rd_le := h.rd_le
  rd_lt := h.rd_lt
  rd_name := h.rd_name
  rd_inj := h.rd_inj
  rd_bytes {id i} hi := by
    by_cases hif : i = file
    · subst hif
      exact ⟨t, by rw [Fs.bytes_append_self, Function.update_self, hb], fun hne => absurd rfl hne⟩
    · rw [Fs.bytes_append_ne hif, Function.update_of_ne hif]
      exact h.rd_bytes hi
  rd_len {id i} hi := by
    by_cases hif : i = file
    · subst hif; rw [Fs.bytes_append_self]; exact hlen
    · rw [Fs.bytes_append_ne hif]; exact h.rd_len hi
  fits i c hc := by
    by_cases hif : i = file
    · subst hif
      rw [Function.update_self] at hc
      rcases List.mem_append.mp hc with hc | hc
      · exact h.fits i c hc
      · exact hcs c hc
    · rw [Function.update_of_ne hif] at hc
      exact h.fits i c hc
  placed := h.placed
  entry hk := by
    obtain ⟨i, v, hi, hat, hlen⟩ := h.entry hk
    refine ⟨i, v, hi, ?_, hlen⟩
    by_cases hif : i = file
    · subst hif; rw [Function.update_self]; exact hat.append cs
    · rw [Function.update_of_ne hif]; exact hat

/-- A new file that is no data file. -/
theorem create_other (h : Core crc recs fs rd index cur file) {n : FileName}
    (hn : ∀ id, n ≠ .data id) : Core crc recs (fs.create n) rd index cur file where
  dir_rd {id i} hi := by
    rw [Fs.lookup_create_ne (hn id).symm] at hi
    exact h.dir_rd hi
  cur_dir := by rw [Fs.lookup_create_ne (hn cur).symm]; exact h.cur_dir
  rd_le := h.rd_le
  rd_lt hi := lt_of_lt_of_le (h.rd_lt hi) Fs.next_le_create
  rd_name {id i m} hi hm := by
    by_cases hmn : m = n
    · subst hmn
      cases hlk : fs.lookup m with
      | some j =>
        rw [Fs.create_of_some hlk] at hm
        exact h.rd_name hi hm
      | none =>
        rw [Fs.lookup_create_self_of_none hlk, Option.some.injEq] at hm
        exact absurd hm (Nat.ne_of_gt (h.rd_lt hi))
    · rw [Fs.lookup_create_ne hmn] at hm
      exact h.rd_name hi hm
  rd_inj := h.rd_inj
  rd_bytes hi := by
    rw [Fs.bytes_create_of_lt (h.rd_lt hi)]
    exact h.rd_bytes hi
  rd_len hi := by
    rw [Fs.bytes_create_of_lt (h.rd_lt hi)]
    exact h.rd_len hi
  fits := h.fits
  placed := h.placed
  entry := h.entry

/-- A new active file under a new highest id. -/
theorem rotate (h : Core crc recs fs rd index cur file) {next : ℕ} (hlt : cur < next)
    (hnew : fs.lookup (.data next) = none) (hall : fs.bytes file = encodeAll crc (recs file)) :
    Core crc (Function.update recs fs.next []) (fs.create (.data next))
      (Function.update rd next (some fs.next)) index next fs.next := by
  have hold : ∀ {id i}, rd id = some i → id ≠ next ∧ i ≠ fs.next := fun hi =>
    ⟨by have := h.rd_le hi; omega, Nat.ne_of_lt (h.rd_lt hi)⟩
  refine ⟨?_, Fs.lookup_create_self_of_none hnew, ?_, ?_, ?_, ?_, ?_, ?_, ?_, h.placed, ?_⟩
  · intro id i hi
    by_cases hid : id = next
    · subst hid
      rw [Fs.lookup_create_self_of_none hnew] at hi
      rw [Function.update_self, hi]
    · rw [Fs.lookup_create_ne (by simpa using hid)] at hi
      rw [Function.update_of_ne hid]
      exact h.dir_rd hi
  · intro id i hi
    rcases handle_cases hi with ⟨rfl, -⟩ | ⟨-, hi⟩
    · exact Nat.le_refl _
    · exact (h.rd_le hi).trans hlt.le
  · intro id i hi
    rw [Fs.next_create_of_none hnew]
    rcases handle_cases hi with ⟨-, rfl⟩ | ⟨-, hi⟩
    · exact Nat.lt_succ_self _
    · exact Nat.lt_succ_of_lt (h.rd_lt hi)
  · intro id i n hi hn
    by_cases hnn : n = .data next
    · subst hnn
      rw [Fs.lookup_create_self_of_none hnew, Option.some.injEq] at hn
      rcases handle_cases hi with ⟨rfl, -⟩ | ⟨-, hi⟩
      · rfl
      · exact absurd hn.symm (hold hi).2
    · rw [Fs.lookup_create_ne hnn] at hn
      rcases handle_cases hi with ⟨-, rfl⟩ | ⟨-, hi⟩
      · exact absurd (fs.dir_lt n _ hn) (Nat.lt_irrefl _)
      · exact h.rd_name hi hn
  · intro id id' i hi hi'
    rcases handle_cases hi with ⟨rfl, rfl⟩ | ⟨-, ho⟩ <;>
      rcases handle_cases hi' with ⟨rfl, he⟩ | ⟨-, ho'⟩
    · rfl
    · exact absurd rfl (hold ho').2
    · exact absurd he (hold ho).2
    · exact h.rd_inj ho ho'
  · intro id i hi
    rcases handle_cases hi with ⟨-, rfl⟩ | ⟨-, hi⟩
    · exact ⟨[], by rw [Fs.bytes_create_next hnew, Function.update_self]; rfl, fun _ => rfl⟩
    · rw [Fs.bytes_create_of_lt (h.rd_lt hi), Function.update_of_ne (hold hi).2]
      obtain ⟨t, ht, hnil⟩ := h.rd_bytes hi
      by_cases hif : i = file
      · exact ⟨[], by rw [hif, hall, List.append_nil], fun _ => rfl⟩
      · exact ⟨t, ht, fun _ => hnil hif⟩
  · intro id i hi
    rcases handle_cases hi with ⟨-, rfl⟩ | ⟨-, hi⟩
    · rw [Fs.bytes_create_next hnew]; simp [maxFileLen]
    · rw [Fs.bytes_create_of_lt (h.rd_lt hi)]; exact h.rd_len hi
  · intro i c hc
    by_cases hin : i = fs.next
    · subst hin; rw [Function.update_self] at hc; cases hc
    · rw [Function.update_of_ne hin] at hc; exact h.fits i c hc
  · intro k e hk
    obtain ⟨i, v, hi, hat, hlen⟩ := h.entry hk
    refine ⟨i, v, ?_, ?_, hlen⟩
    · rw [Function.update_of_ne (hold hi).1]; exact hi
    · rw [Function.update_of_ne (hold hi).2]; exact hat

/-- Any name but that of the active file may go. -/
theorem unlink (h : Core crc recs fs rd index cur file) {n : FileName} (hn : n ≠ .data cur) :
    Core crc recs (fs.unlink n) rd index cur file where
  dir_rd {id i} hi := by
    by_cases hid : FileName.data id = n
    · rw [hid, Fs.lookup_unlink_self] at hi; cases hi
    · rw [Fs.lookup_unlink_ne fs hid] at hi
      exact h.dir_rd hi
  cur_dir := by rw [Fs.lookup_unlink_ne fs hn.symm]; exact h.cur_dir
  rd_le := h.rd_le
  rd_lt := h.rd_lt
  rd_name {id i m} hi hm := by
    by_cases hmn : m = n
    · rw [hmn, Fs.lookup_unlink_self] at hm; cases hm
    · rw [Fs.lookup_unlink_ne fs hmn] at hm
      exact h.rd_name hi hm
  rd_inj := h.rd_inj
  rd_bytes := h.rd_bytes
  rd_len := h.rd_len
  fits := h.fits
  placed := h.placed
  entry := h.entry

/-- A finished merge output becomes the data file of a free id below the active one. -/
theorem rename (h : Core crc recs fs rd index cur file) {id : ℕ} {j : Inode}
    (hj : fs.lookup (.compact id) = some j) (hfree : rd id = none) (hlt : id < cur)
    (hb : fs.bytes j = encodeAll crc (recs j)) (hlen : (fs.bytes j).length < maxFileLen) :
    Core crc recs (fs.rename (.compact id) (.data id)) (Function.update rd id (some j)) index cur
      file := by
  have hno : ∀ id', rd id' ≠ some j := h.no_handle hj (by simp)
  have hnd : fs.lookup (.data id) = none := by
    by_contra hne
    obtain ⟨i, hi⟩ := Option.ne_none_iff_exists'.mp hne
    rw [h.dir_rd hi] at hfree; cases hfree
  refine ⟨?_, ?_, ?_, ?_, ?_, ?_, ?_, ?_, h.fits, h.placed, ?_⟩
  · intro id' i hi
    by_cases hid : id' = id
    · subst hid
      rw [Fs.lookup_rename_new hj] at hi
      rw [Function.update_self, hi]
    · rw [Fs.lookup_rename_ne (by simp) (by simpa using hid)] at hi
      rw [Function.update_of_ne hid]
      exact h.dir_rd hi
  · rw [Fs.lookup_rename_ne (by simp) (by simpa using (Nat.ne_of_gt hlt))]
    exact h.cur_dir
  · intro id' i hi
    rcases handle_cases hi with ⟨rfl, -⟩ | ⟨-, hi⟩
    · exact hlt.le
    · exact h.rd_le hi
  · intro id' i hi
    rw [Fs.next_rename]
    rcases handle_cases hi with ⟨-, rfl⟩ | ⟨-, hi⟩
    · exact fs.dir_lt _ _ hj
    · exact h.rd_lt hi
  · intro id' i n hi hn
    by_cases hnew : n = .data id
    · subst hnew
      rw [Fs.lookup_rename_new hj, Option.some.injEq] at hn
      rcases handle_cases hi with ⟨rfl, -⟩ | ⟨-, hi⟩
      · rfl
      · exact absurd (hn ▸ hi) (hno id')
    · by_cases hold : n = .compact id
      · subst hold
        rw [Fs.lookup_rename_old hj (by simp)] at hn; cases hn
      · rw [Fs.lookup_rename_ne hold hnew] at hn
        rcases handle_cases hi with ⟨-, rfl⟩ | ⟨-, hi⟩
        · exact absurd (fs.dir_inj n _ _ hn hj) hold
        · exact h.rd_name hi hn
  · intro id₁ id₂ i hi hi'
    rcases handle_cases hi with ⟨rfl, rfl⟩ | ⟨-, ho⟩ <;>
      rcases handle_cases hi' with ⟨rfl, he⟩ | ⟨-, ho'⟩
    · rfl
    · exact absurd ho' (hno _)
    · exact absurd (he ▸ ho) (hno _)
    · exact h.rd_inj ho ho'
  · intro id' i hi
    rw [Fs.bytes_rename]
    rcases handle_cases hi with ⟨-, rfl⟩ | ⟨-, hi⟩
    · exact ⟨[], by rw [hb, List.append_nil], fun _ => rfl⟩
    · exact h.rd_bytes hi
  · intro id' i hi
    rw [Fs.bytes_rename]
    rcases handle_cases hi with ⟨-, rfl⟩ | ⟨-, hi⟩
    · exact hlen
    · exact h.rd_len hi
  · intro k e hk
    obtain ⟨i, v, hi, hat, hlen⟩ := h.entry hk
    refine ⟨i, v, ?_, hat, hlen⟩
    rw [Function.update_of_ne]
    · exact hi
    · intro he
      rw [he, hfree] at hi; cases hi

/-- The index gets an entry for a `Set` record behind a handle. -/
theorem insert (h : Core crc recs fs rd index cur file) {k v : Bytes} {e : IndexValue} {i : Inode}
    (hi : rd e.fileId = some i) (hat : At crc (recs i) e.offset (.set e.ts k v))
    (hlen : e.len = ((Command.set e.ts k v).serialize crc).length) :
    Core crc recs fs rd (index.insert k e) cur file where
  dir_rd := h.dir_rd
  cur_dir := h.cur_dir
  rd_le := h.rd_le
  rd_lt := h.rd_lt
  rd_name := h.rd_name
  rd_inj := h.rd_inj
  rd_bytes := h.rd_bytes
  rd_len := h.rd_len
  fits := h.fits
  placed := h.placed.insert
  entry {k' e'} hk := by
    by_cases hkk : k' = k
    · subst hkk
      rw [Index.get_insert_self, Option.some.injEq] at hk
      subst hk
      exact ⟨i, v, hi, hat, hlen⟩
    · rw [Index.get_insert_ne hkk] at hk
      exact h.entry hk

/-- The index loses an entry. -/
theorem remove (h : Core crc recs fs rd index cur file) (k : Bytes) :
    Core crc recs fs rd (index.remove k) cur file where
  dir_rd := h.dir_rd
  cur_dir := h.cur_dir
  rd_le := h.rd_le
  rd_lt := h.rd_lt
  rd_name := h.rd_name
  rd_inj := h.rd_inj
  rd_bytes := h.rd_bytes
  rd_len := h.rd_len
  fits := h.fits
  placed := h.placed.remove
  entry {k' e'} hk := by
    by_cases hkk : k' = k
    · subst hkk
      rw [Index.get_remove_self] at hk; cases hk
    · rw [Index.get_remove_ne hkk] at hk
      exact h.entry hk

end Core

end Core

end Bitcask
