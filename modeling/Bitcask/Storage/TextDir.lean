import Bitcask.Storage.OpenAny
import Bitcask.Storage.OpenOrder
import Bitcask.Storage.World

/-!
# A directory as the store sees it

The rest of this development is about directories whose names are those of the store (`FileName`). A
directory of the file system has names that are text, and files of other programs among them.

`Mirrors s t`: `t` is what the store sees of the directory `s`. If the names that are read as a file id
are plain, every directory has such a `t` (`exists_mirrors`), and `open` on `s` does what `openStore`
does on `t` (`openStore_mirrors`). What is proved of `openStore` then holds of the directory, such as
the recovery after a crash (`openStore_recovers`).
-/

namespace Bitcask

open LittleEndian FileSystem CrashHoare

/-- The file of the store that has this name, if it is one. -/
noncomputable def ownName (s : Bytes) : Option FileName :=
  (Function.partialInv FileName.text s).filter fun n => n.Valid

theorem ownName_eq_some {s : Bytes} {n : FileName} : ownName s = some n ↔ n.text = s ∧ n.Valid := by
  unfold ownName
  rw [Option.filter_eq_some_iff, decide_eq_true_eq,
    FileName.text_injective.isPartialInv n s]

theorem ownName_eq_none {s : Bytes} : ownName s = none ↔ ∀ n : FileName, n.Valid → n.text ≠ s := by
  rw [Option.eq_none_iff_forall_ne_some]
  refine forall_congr' fun n => ?_
  rw [ne_eq, ownName_eq_some]
  exact ⟨fun h hv he => h ⟨he, hv⟩, fun h hn => h hn.2 hn.1⟩

/-- The directory as the store sees it, where no foreign name is read as a file id. -/
structure Mirrors (s : Fs Bytes) (t : Fs FileName) : Prop where
  seen : Fs.Seen FileName.text FileName.Valid s t
  canonical : textNames.Canonical s

variable {s : Fs Bytes} {t : Fs FileName} {n : FileName}

theorem exists_mirrors (h : PlainNames s) : ∃ t, Mirrors s t := by
  obtain ⟨t, ht⟩ := Fs.exists_seen (P := FileName.Valid) FileName.text_injective s
  exact ⟨t, ht, h.canonical⟩

/-! ## The calls -/

theorem Mirrors.unlink (h : Mirrors s t) (n : FileName) : Mirrors (s.unlink n.text) (t.unlink n) :=
  ⟨h.seen.unlink FileName.text_injective n, h.canonical.unlink n.text⟩

theorem Mirrors.unlink_foreign (h : Mirrors s t) {x : Bytes} (hx : ownName x = none) :
    Mirrors (s.unlink x) t :=
  ⟨h.seen.unlink_other (ownName_eq_none.mp hx), h.canonical.unlink x⟩

theorem Mirrors.create (h : Mirrors s t) (hn : n.Valid) : Mirrors (s.create n.text) (t.create n) := by
  refine ⟨h.seen.create FileName.text_injective hn, h.canonical.create fun id hc => ?_⟩
  have hentry : n.entry = .data id := (classify_text hn).symm.trans hc
  cases n <;> cases hentry
  rfl

/-- The calls of `open` outside the walk. -/
theorem Mirrors.compatible : Naming.Compatible (· < 2 ^ 64) textNames storeNames Mirrors where
  bytes h := h.seen.bytes
  hint {_ _ id} h hid := @Fs.Seen.lookup _ _ _ _ _ _ _ _ h.seen (.hint id) hid
  unlink {_ _ id} h _ := h.unlink (.hint id)
  setLen h i n := ⟨h.seen.setLen i n, h.canonical.congr rfl⟩
  append h i b := ⟨h.seen.append i b, h.canonical.congr rfl⟩
  sync h i := ⟨h.seen.sync i, h.canonical.congr rfl⟩
  data {_ _ id} h hid := by
    have hv : (FileName.data id).Valid := hid
    exact ⟨h.create hv, h.seen.handle hv⟩
  lock h := by
    have hv : FileName.lock.Valid := trivial
    exact ⟨h.create hv, h.seen.handle hv⟩

/-! ## The walk -/

/-- A listing of the directory without the foreign names is a listing of what the store sees. -/
theorem Mirrors.lists (h : Mirrors s t) {listing : List Bytes} (hl : s.Lists listing) :
    t.Lists (listing.filterMap ownName) := by
  refine ⟨hl.1.filterMap fun x y n hx hy => ?_, fun n => ?_⟩
  · rw [← (ownName_eq_some.mp hx).1, ← (ownName_eq_some.mp hy).1]
  rw [List.mem_filterMap]
  constructor
  · rintro ⟨x, hx, hn⟩
    obtain ⟨rfl, hv⟩ := ownName_eq_some.mp hn
    rw [← h.seen.lookup hv]
    exact (hl.2 _).mp hx
  · intro hn
    have hv : n.Valid := by
      by_contra hv
      rw [h.seen.unseen hv] at hn
      cases hn
    rw [← h.seen.lookup hv] at hn
    exact ⟨n.text, (hl.2 _).mpr hn, ownName_eq_some.mpr ⟨rfl, hv⟩⟩

/-- A scan of a directory: both walks have found the same, and the ids are `u64`s. -/
def SameIds (scan scan' : Scan) : Prop :=
  scan = scan' ∧ scan.maxId.getD 1 < 2 ^ 64 ∧
    ∀ id : ℕ, scan.readHandlers[id]? ≠ none → id < 2 ^ 64

theorem SameIds.insert {scan scan' : Scan} (h : SameIds scan scan') {id : ℕ} (hid : id < 2 ^ 64)
    (i : Inode) :
    SameIds
      ⟨scan.readHandlers.insert id i, some (match scan.maxId with | none => id | some m => max m id)⟩
      ⟨scan'.readHandlers.insert id i,
        some (match scan'.maxId with | none => id | some m => max m id)⟩ := by
  obtain ⟨rfl, hmax, hids⟩ := h
  refine ⟨rfl, ?_, fun j hj => ?_⟩
  · cases hm : scan.maxId with
    | none => exact hid
    | some m =>
      rw [hm] at hmax
      exact max_lt hmax hid
  · by_cases hji : j = id
    · rw [hji]; exact hid
    · rw [readers_insert_ne hji] at hj
      exact hids j hj

/-- A name of the store. -/
theorem scanEntry_own (h : Mirrors s t) (hn : n.Valid) {scan scan' : Scan} (hs : SameIds scan scan') :
    Coupled Mirrors SameIds (textNames.scanEntry scan n.text) (storeNames.scanEntry scan' n) s t := by
  have hclass : textNames.classify n.text = n.entry := classify_text hn
  refine Coupled.get_bind ?_
  rw [h.seen.lookup hn, hclass]
  cases t.lookup n with
  | none => exact Coupled.pure h hs
  | some i =>
    cases n with
    | data id => exact Coupled.pure h (hs.insert hn i)
    | compact id =>
      exact Coupled.bind (Coupled.call (h.unlink (.compact id))) (fun _ _ h => h)
        fun _ _ _ _ _ h' => Coupled.pure h' hs
    | lock => exact Coupled.pure h hs
    | hint id =>
      have hdata : s.lookup (textNames.data id) = t.lookup (storeNames.data id) :=
        h.seen.lookup (m := .data id) hn
      have hunlink : Coupled Mirrors (fun _ _ => True)
          (Prog.call (·.unlink (FileName.hint id).text) : Prog (Fs Bytes) Fault Unit)
          (Prog.call (·.unlink (.hint id))) s t := Coupled.call (h.unlink (.hint id))
      simp only [FileName.entry, hdata]
      by_cases hnone : (t.lookup (storeNames.data id)).isNone
      · rw [if_pos hnone, if_pos hnone]
        exact hunlink.bind (fun _ _ h => h) fun _ _ _ _ _ h' => Coupled.pure h' hs
      · rw [if_neg hnone, if_neg hnone]
        exact Coupled.pure h hs

/-- A foreign name: the walk may remove the file, and finds nothing. -/
theorem scanEntry_foreign (h : Mirrors s t) {x : Bytes} (hx : ownName x = none) {scan scan' : Scan}
    (hs : SameIds scan scan') :
    Coupled Mirrors SameIds (textNames.scanEntry scan x) (Pure.pure scan') s t := by
  refine Coupled.get_left ?_
  cases hlook : s.lookup x with
  | none => exact Coupled.pure h hs
  | some i =>
    cases hclass : textNames.classify x with
    | data id =>
      -- it would be the name of a data file of the store
      have hname : dataFileName id = x := (h.canonical x id (by rw [hlook]; simp) hclass).symm
      obtain ⟨-, -, -, hid⟩ := getFileId_eq_some.mp (classify_eq_data.mp hclass)
      exact absurd hname (ownName_eq_none.mp hx (.data id) hid)
    | leftover => exact Coupled.call_left (Coupled.pure (h.unlink_foreign hx) hs)
    | hint id =>
      simp only
      split
      · exact Coupled.call_left (Coupled.pure (h.unlink_foreign hx) hs)
      · exact Coupled.pure h hs
    | other => exact Coupled.pure h hs

theorem walk_coupled (h : Mirrors s t) (listing : List Bytes) :
    Coupled Mirrors SameIds (listing.foldlM textNames.scanEntry ⟨∅, none⟩)
      ((listing.filterMap ownName).foldlM storeNames.scanEntry ⟨∅, none⟩) s t := by
  refine Coupled.foldlM ?_ ?_ listing ⟨rfl, by decide, by simp⟩ h
  · intro x n scan scan' s t hx hs hst
    obtain ⟨rfl, hn⟩ := ownName_eq_some.mp hx
    exact scanEntry_own hst hn hs
  · intro x scan scan' s t hx hs hst
    exact scanEntry_foreign hst hx hs

/-! ## Open -/

/-- The store that `open` makes of the loader. -/
structure Loader.Opens (l : Loader) (y : Sys) : Prop where
  index : l.index = y.index
  writer : l.writer = y.writer
  readers : ∀ id : ℕ, l.readers[id]? = y.readers[id]?

variable {crc : Bytes → UInt32}

/-- `open` on a directory of the file system is `openStore` on what the store sees of it. -/
theorem openStore_mirrors (h : Mirrors s t) (listing : List Bytes) (now : ℕ) :
    Coupled Mirrors Loader.Opens (textNames.openStore crc listing now)
      (openStore crc (listing.filterMap ownName) now) s t := by
  have hload : Coupled Mirrors Loader.Same (textNames.openStore crc listing now)
      (storeNames.openStore crc (listing.filterMap ownName) now) s t := by
    refine (Naming.acquire_coupled Mirrors.compatible h .bitcask).bind (fun _ _ h => h) ?_
    rintro _ _ s₁ t₁ - h₁
    refine (walk_coupled h₁ listing).bind (fun _ _ h => h) ?_
    rintro scan _ s₂ t₂ ⟨rfl, hcur, hids⟩ h₂
    exact Naming.loadFrom_coupled Mirrors.compatible h₂ ⟨rfl, fun _ => rfl⟩ hcur hids now
  exact hload.finish fun l l' t' hl => ⟨hl.index, hl.writer, hl.readers⟩

/-- The same from the file names alone: whatever else is in the directory, and in whatever order it is
listed, `open` does what `openStore` does with the files of the store. -/
theorem openStore_plain (h : PlainNames s) :
    ∃ t, Mirrors s t ∧ ∀ listing now, (s.create lockFileName).Lists listing →
      ∃ listing', (t.create .lock).Lists listing' ∧
        Coupled Mirrors Loader.Opens (textNames.openStore crc listing now)
          (openStore crc listing' now) s t := by
  obtain ⟨t, ht⟩ := exists_mirrors h
  refine ⟨t, ht, fun listing now hl => ?_⟩
  have hlist := (ht.create (n := .lock) trivial).lists hl
  exact ⟨listing.filterMap ownName, hlist, openStore_mirrors ht listing now⟩

/-- Recovery in a directory with files of other programs: if the store sees the directory that a
run has left, `open` returns on it, in whatever order it is listed, and every key has the value given
by the appends that are over, with or without the one in flight. -/
theorem openStore_recovers {w : World} {ops : List Command}
    (h : Reach crc (fun _ a => a.Nominal) w ops) (hs : Mirrors s w.fs) {listing : List Bytes}
    (hlist : (s.create lockFileName).Lists listing) (now : ℕ) :
    ∃ l y t, (textNames.openStore crc listing now s).result = .ok l ∧ l.Opens y ∧
      Mirrors (textNames.openStore crc listing now s).after y.fs ∧ (t = [] ∨ t = w.inFlight) ∧
      y.Agrees crc (ops ++ t) := by
  have hlist' : (w.fs.create .lock).Lists (listing.filterMap ownName) :=
    (hs.create (n := .lock) trivial).lists hlist
  have hopen : Coupled Mirrors Loader.Opens (textNames.openStore crc listing now)
      (openStore crc (listing.filterMap ownName) now) s w.fs := openStore_mirrors hs listing now
  have hinv := reach_inv (h.benign fun hn => hn.tidy).1
  obtain ⟨y, t, hy, ht, hagree⟩ := @World.Inv.recovers crc ops w hinv _ now hlist'
  obtain ⟨l, hl, hopens⟩ := hopen.ok_left hy
  have hfs := ((openStore_any crc now hlist').ok rfl hy).1
  exact ⟨l, y, t, hl, hopens, hfs ▸ hopen.1, ht, hagree⟩

end Bitcask
