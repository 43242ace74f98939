import Mathlib.Data.Finmap
import Bitcask.Lib.LittleEndian

/-!
# A directory of files

A directory maps names to inodes; an inode holds bytes, of which a prefix is known to be on the
disk. A file that loses its name keeps its bytes, so an open handle (an inode) can still read it.
Inodes are never shared by two names and never reused, which the type states.

`Seen f P s t`: the directory `t` is what `s` shows of the names `f m` with `P m`. Calls on such names
do the same in both, and `s` may hold other files besides.

`PowerLoss fs fs'`: what a power loss may leave of `fs` when creates, renames and unlinks are
durable in order. Every file keeps its synced prefix and possibly more.
-/

namespace FileSystem

open LittleEndian

abbrev Inode := ℕ

/-- A directory, the contents of the files, the length of the prefix of each that a completed
sync covers, and the first unused inode. -/
structure Fs (N : Type) [DecidableEq N] where
  dir : Finmap (fun _ : N => Inode)
  bytes : Inode → Bytes
  synced : Inode → ℕ
  next : Inode
  dir_lt : ∀ n i, dir.lookup n = some i → i < next
  dir_inj : ∀ n m i, dir.lookup n = some i → dir.lookup m = some i → n = m

variable {N : Type} [DecidableEq N]

namespace Fs

/-- The inode a name stands for. -/
def lookup (fs : Fs N) (n : N) : Option Inode := fs.dir.lookup n

/-- The contents of the file a name stands for. -/
def read (fs : Fs N) (n : N) : Option Bytes := (fs.lookup n).map fs.bytes

/-- The file a handle opened with `create` on the name stands for: the named one, or a new one. -/
def handle (fs : Fs N) (n : N) : Inode := (fs.lookup n).getD fs.next

/-- The empty directory. -/
def empty : Fs N where
  dir := ∅
  bytes := fun _ => []
  synced := fun _ => 0
  next := 0
  dir_lt := fun n i h => by rw [Finmap.lookup_empty] at h; cases h
  dir_inj := fun n m i h => by rw [Finmap.lookup_empty] at h; cases h

/-- `open` with `create`: a name that is not there gets a new empty file. -/
def create (fs : Fs N) (n : N) : Fs N :=
  match h : fs.dir.lookup n with
  | some _ => fs
  | none =>
    { dir := fs.dir.insert n fs.next
      bytes := Function.update fs.bytes fs.next []
      synced := Function.update fs.synced fs.next 0
      next := fs.next + 1
      dir_lt := fun m i hm => by
        by_cases hmn : m = n
        · subst hmn
          rw [Finmap.lookup_insert, Option.some.injEq] at hm
          exact hm ▸ Nat.lt_succ_self fs.next
        · rw [Finmap.lookup_insert_of_ne _ hmn] at hm
          exact Nat.lt_succ_of_lt (fs.dir_lt m i hm)
      dir_inj := fun m l i hm hl => by
        by_cases hmn : m = n
        · by_cases hln : l = n
          · rw [hmn, hln]
          · subst hmn
            rw [Finmap.lookup_insert, Option.some.injEq] at hm
            rw [Finmap.lookup_insert_of_ne _ hln] at hl
            exact absurd hm (Nat.ne_of_gt (fs.dir_lt l i hl))
        · by_cases hln : l = n
          · subst hln
            rw [Finmap.lookup_insert, Option.some.injEq] at hl
            rw [Finmap.lookup_insert_of_ne _ hmn] at hm
            exact absurd hl (Nat.ne_of_gt (fs.dir_lt m i hm))
          · rw [Finmap.lookup_insert_of_ne _ hmn] at hm
            rw [Finmap.lookup_insert_of_ne _ hln] at hl
            exact fs.dir_inj m l i hm hl }

/-- `write` on a handle in append mode. -/
def append (fs : Fs N) (i : Inode) (b : Bytes) : Fs N :=
  { fs with bytes := Function.update fs.bytes i (fs.bytes i ++ b) }

/-- A file written by another program: the name gets a new file, or a longer one. -/
def put (fs : Fs N) (n : N) (b : Bytes) : Fs N := (fs.create n).append (fs.handle n) b

/-- `sync_all` on a handle. -/
def sync (fs : Fs N) (i : Inode) : Fs N :=
  { fs with synced := Function.update fs.synced i (fs.bytes i).length }

/-- `set_len` on a handle, to a length the file has. -/
def setLen (fs : Fs N) (i : Inode) (n : ℕ) : Fs N :=
  { fs with
    bytes := Function.update fs.bytes i ((fs.bytes i).take n)
    synced := Function.update fs.synced i (min (fs.synced i) n) }

/-- `unlink`. -/
def unlink (fs : Fs N) (n : N) : Fs N :=
  { fs with
    dir := fs.dir.erase n
    dir_lt := fun m i hm => by
      by_cases hmn : m = n
      · subst hmn; rw [Finmap.lookup_erase] at hm; cases hm
      · rw [Finmap.lookup_erase_ne hmn] at hm
        exact fs.dir_lt m i hm
    dir_inj := fun m l i hm hl => by
      by_cases hmn : m = n
      · subst hmn; rw [Finmap.lookup_erase] at hm; cases hm
      · by_cases hln : l = n
        · subst hln; rw [Finmap.lookup_erase] at hl; cases hl
        · rw [Finmap.lookup_erase_ne hmn] at hm
          rw [Finmap.lookup_erase_ne hln] at hl
          exact fs.dir_inj m l i hm hl }

theorem lookup_unlink_self (fs : Fs N) (n : N) : (fs.unlink n).lookup n = none :=
  Finmap.lookup_erase n fs.dir

theorem lookup_unlink_ne (fs : Fs N) {n m : N} (h : m ≠ n) :
    (fs.unlink n).lookup m = fs.lookup m := Finmap.lookup_erase_ne h

/-- Give a file that has no name a name. -/
def link (fs : Fs N) (n : N) (i : Inode) (hi : i < fs.next) (hfree : ∀ m, fs.lookup m ≠ some i) :
    Fs N :=
  { fs with
    dir := fs.dir.insert n i
    dir_lt := fun m j hm => by
      by_cases hmn : m = n
      · subst hmn
        rw [Finmap.lookup_insert, Option.some.injEq] at hm
        exact hm ▸ hi
      · rw [Finmap.lookup_insert_of_ne _ hmn] at hm
        exact fs.dir_lt m j hm
    dir_inj := fun m l j hm hl => by
      by_cases hmn : m = n
      · by_cases hln : l = n
        · rw [hmn, hln]
        · subst hmn
          rw [Finmap.lookup_insert, Option.some.injEq] at hm
          rw [Finmap.lookup_insert_of_ne _ hln, ← hm] at hl
          exact absurd hl (hfree l)
      · by_cases hln : l = n
        · subst hln
          rw [Finmap.lookup_insert, Option.some.injEq] at hl
          rw [Finmap.lookup_insert_of_ne _ hmn, ← hl] at hm
          exact absurd hm (hfree m)
        · rw [Finmap.lookup_insert_of_ne _ hmn] at hm
          rw [Finmap.lookup_insert_of_ne _ hln] at hl
          exact fs.dir_inj m l j hm hl }

/-- `rename`; the caller has checked that the old name exists. A file that had the new name loses
it. -/
def rename (fs : Fs N) (old new : N) : Fs N :=
  match h : fs.lookup old with
  | none => fs
  | some i =>
    (fs.unlink old).link new i (fs.dir_lt old i h) fun m hm => by
      by_cases hmo : m = old
      · subst hmo; rw [lookup_unlink_self] at hm; cases hm
      · rw [lookup_unlink_ne fs hmo] at hm
        exact hmo (fs.dir_inj m old i hm h)

/-! ## What each call changes -/

section Calls

variable (fs : Fs N) (n m : N) (i j : Inode)

@[simp] theorem lookup_empty : (empty : Fs N).lookup n = none := Finmap.lookup_empty n

@[simp] theorem lookup_append (b : Bytes) : (fs.append i b).lookup n = fs.lookup n := rfl
@[simp] theorem lookup_sync : (fs.sync i).lookup n = fs.lookup n := rfl
@[simp] theorem lookup_setLen (l : ℕ) : (fs.setLen i l).lookup n = fs.lookup n := rfl
@[simp] theorem bytes_sync : (fs.sync i).bytes = fs.bytes := rfl
@[simp] theorem bytes_unlink : (fs.unlink n).bytes = fs.bytes := rfl
@[simp] theorem next_append (b : Bytes) : (fs.append i b).next = fs.next := rfl
@[simp] theorem next_sync : (fs.sync i).next = fs.next := rfl
@[simp] theorem next_setLen (l : ℕ) : (fs.setLen i l).next = fs.next := rfl
@[simp] theorem next_unlink : (fs.unlink n).next = fs.next := rfl
@[simp] theorem synced_append (b : Bytes) : (fs.append i b).synced = fs.synced := rfl
@[simp] theorem synced_unlink : (fs.unlink n).synced = fs.synced := rfl

@[simp] theorem bytes_append_self (b : Bytes) : (fs.append i b).bytes i = fs.bytes i ++ b :=
  Function.update_self ..

@[simp] theorem synced_sync_self : (fs.sync i).synced i = (fs.bytes i).length :=
  Function.update_self ..

@[simp] theorem bytes_setLen_self (l : ℕ) : (fs.setLen i l).bytes i = (fs.bytes i).take l :=
  Function.update_self ..

@[simp] theorem synced_setLen_self (l : ℕ) : (fs.setLen i l).synced i = min (fs.synced i) l :=
  Function.update_self ..

@[simp] theorem append_nil : fs.append i [] = fs := by
  unfold append
  rw [List.append_nil, Function.update_eq_self]

theorem append_append (b c : Bytes) : (fs.append i b).append i c = fs.append i (b ++ c) := by
  simp [append, Function.update_idem]

variable {fs n m i j}

theorem bytes_append_ne (h : j ≠ i) (b : Bytes) : (fs.append i b).bytes j = fs.bytes j :=
  Function.update_of_ne h ..

theorem synced_sync_ne (h : j ≠ i) : (fs.sync i).synced j = fs.synced j :=
  Function.update_of_ne h ..

theorem bytes_setLen_ne (h : j ≠ i) (l : ℕ) : (fs.setLen i l).bytes j = fs.bytes j :=
  Function.update_of_ne h ..

theorem synced_setLen_ne (h : j ≠ i) (l : ℕ) : (fs.setLen i l).synced j = fs.synced j :=
  Function.update_of_ne h ..

theorem create_of_some (h : fs.lookup n = some i) : fs.create n = fs := by
  unfold create
  split
  · rfl
  · rename_i h'; rw [lookup, h'] at h; cases h

theorem lookup_create_self_of_none (h : fs.lookup n = none) :
    (fs.create n).lookup n = some fs.next := by
  unfold create
  split
  · rename_i h'; rw [lookup, h'] at h; cases h
  · exact Finmap.lookup_insert _

theorem lookup_create_self : (fs.create n).lookup n = some (fs.handle n) := by
  cases h : fs.lookup n with
  | some i => rw [create_of_some h, h, handle, h]; rfl
  | none => rw [lookup_create_self_of_none h, handle, h]; rfl

theorem lookup_create_ne (h : m ≠ n) : (fs.create n).lookup m = fs.lookup m := by
  unfold create
  split
  · rfl
  · exact Finmap.lookup_insert_of_ne _ h

theorem handle_of_none (h : fs.lookup n = none) : fs.handle n = fs.next := by
  unfold handle
  rw [h]
  rfl

theorem handle_of_some (h : fs.lookup n = some i) : fs.handle n = i := by
  unfold handle
  rw [h]
  rfl

theorem bytes_create_of_lt (h : j < fs.next) : (fs.create n).bytes j = fs.bytes j := by
  unfold create
  split
  · rfl
  · exact Function.update_of_ne (Nat.ne_of_lt h) ..

theorem synced_create_of_lt (h : j < fs.next) : (fs.create n).synced j = fs.synced j := by
  unfold create
  split
  · rfl
  · exact Function.update_of_ne (Nat.ne_of_lt h) ..

theorem bytes_create_of_none (h : fs.lookup n = none) :
    (fs.create n).bytes = Function.update fs.bytes fs.next [] := by
  unfold create
  split
  · rename_i h'; rw [lookup, h'] at h; cases h
  · rfl

theorem synced_create_of_none (h : fs.lookup n = none) :
    (fs.create n).synced = Function.update fs.synced fs.next 0 := by
  unfold create
  split
  · rename_i h'; rw [lookup, h'] at h; cases h
  · rfl

theorem bytes_create_next (h : fs.lookup n = none) : (fs.create n).bytes fs.next = [] := by
  rw [bytes_create_of_none h, Function.update_self]

theorem synced_create_next (h : fs.lookup n = none) : (fs.create n).synced fs.next = 0 := by
  rw [synced_create_of_none h, Function.update_self]

/-- Only the file behind a name is read. -/
theorem read_congr {fs' : Fs N} (hl : fs'.lookup n = fs.lookup n)
    (hb : ∀ i, fs.lookup n = some i → fs'.bytes i = fs.bytes i) : fs'.read n = fs.read n := by
  unfold read
  rw [hl]
  cases h : fs.lookup n with
  | none => rfl
  | some i => rw [Option.map_some, Option.map_some, hb i h]

theorem read_create_ne (h : m ≠ n) : (fs.create n).read m = fs.read m :=
  read_congr (lookup_create_ne h) fun _ hi => bytes_create_of_lt (fs.dir_lt _ _ hi)

theorem next_create_of_none (h : fs.lookup n = none) : (fs.create n).next = fs.next + 1 := by
  unfold create
  split
  · rename_i h'; rw [lookup, h'] at h; cases h
  · rfl

theorem next_le_create : fs.next ≤ (fs.create n).next := by
  unfold create
  split
  · exact Nat.le_refl _
  · exact Nat.le_succ _

theorem lookup_rename_new (h : fs.lookup n = some i) : (fs.rename n m).lookup m = some i := by
  unfold rename
  split
  · rename_i h'; rw [h'] at h; cases h
  · rename_i k h'
    rw [h'] at h
    obtain rfl := Option.some.inj h
    exact Finmap.lookup_insert _

theorem lookup_rename_old (h : fs.lookup n = some i) (hnm : n ≠ m) :
    (fs.rename n m).lookup n = none := by
  unfold rename
  split
  · rename_i h'; rw [h'] at h; cases h
  · exact (Finmap.lookup_insert_of_ne _ hnm).trans (lookup_unlink_self fs n)

theorem lookup_rename_ne {l : N} (hn : l ≠ n) (hm : l ≠ m) :
    (fs.rename n m).lookup l = fs.lookup l := by
  unfold rename
  split
  · rfl
  · exact (Finmap.lookup_insert_of_ne _ hm).trans (lookup_unlink_ne fs hn)

@[simp] theorem bytes_rename : (fs.rename n m).bytes = fs.bytes := by
  unfold rename
  split <;> rfl

@[simp] theorem synced_rename : (fs.rename n m).synced = fs.synced := by
  unfold rename
  split <;> rfl

@[simp] theorem next_rename : (fs.rename n m).next = fs.next := by
  unfold rename
  split <;> rfl

end Calls

/-! ## Calls that only append -/

/-- Files only grow, and only those in `T`. -/
def Grows (T : Set Inode) (fs fs' : Fs N) : Prop :=
  fs.next ≤ fs'.next ∧
    ∀ i < fs.next, fs.bytes i <+: fs'.bytes i ∧ (i ∉ T → fs'.bytes i = fs.bytes i)

section Grows

variable {T : Set Inode} {fs fs' fs'' : Fs N}

theorem Grows.of_eq (hn : fs'.next = fs.next) (hb : fs'.bytes = fs.bytes) : Grows T fs fs' :=
  ⟨hn.ge, fun i _ => by rw [hb]; exact ⟨List.prefix_rfl, fun _ => rfl⟩⟩

theorem Grows.create (n : N) : Grows T fs (fs.create n) :=
  ⟨next_le_create, fun _ hi => by
    rw [bytes_create_of_lt hi]; exact ⟨List.prefix_rfl, fun _ => rfl⟩⟩

theorem Grows.append {j : Inode} (hj : j ∈ T) (b : Bytes) : Grows T fs (fs.append j b) := by
  refine ⟨le_rfl, fun i _ => ?_⟩
  by_cases hij : i = j
  · subst hij
    rw [bytes_append_self]
    exact ⟨List.prefix_append _ _, fun h => absurd hj h⟩
  · rw [bytes_append_ne hij]
    exact ⟨List.prefix_rfl, fun _ => rfl⟩

theorem Grows.trans (h : Grows T fs fs') (h' : Grows T fs' fs'') : Grows T fs fs'' := by
  refine ⟨h.1.trans h'.1, fun i hi => ?_⟩
  obtain ⟨hp, he⟩ := h.2 i hi
  obtain ⟨hp', he'⟩ := h'.2 i (hi.trans_le h.1)
  exact ⟨hp.trans hp', fun hT => (he' hT).trans (he hT)⟩

end Grows

/-- A directory is its names, the contents behind them and the next inode. -/
theorem ext_lookup {fs fs' : Fs N} (hl : ∀ n, fs.lookup n = fs'.lookup n) (hb : fs.bytes = fs'.bytes)
    (hs : fs.synced = fs'.synced) (hn : fs.next = fs'.next) : fs = fs' := by
  have hd : fs.dir = fs'.dir := Finmap.ext_lookup hl
  cases fs
  cases fs'
  simp only at hd hb hs hn
  subst hd hb hs hn
  rfl

/-- A list of the names in the directory, in whatever order they are read. -/
def Lists (fs : Fs N) (l : List N) : Prop := l.Nodup ∧ ∀ n, n ∈ l ↔ (fs.lookup n).isSome

theorem exists_lists (fs : Fs N) : ∃ l, fs.Lists l := by
  refine ⟨fs.dir.keys.toList, Finset.nodup_toList _, fun n => ?_⟩
  rw [Finset.mem_toList, Finmap.mem_keys, ← Finmap.lookup_isSome]
  rfl

theorem lists_of_keys {fs : Fs N} {l : List N} (hn : l.Nodup) (hk : l.toFinset = fs.dir.keys) :
    fs.Lists l := by
  refine ⟨hn, fun n => ?_⟩
  rw [← List.mem_toFinset, hk, Finmap.mem_keys, ← Finmap.lookup_isSome]
  rfl

/-! ## A directory under other names -/

section Seen

variable {M : Type} [DecidableEq M]

/-- The files of `s` that have a name `f m` with `P m` are the files of `t`. -/
structure Seen (f : M → N) (P : M → Prop) (s : Fs N) (t : Fs M) : Prop where
  lookup : ∀ {m}, P m → s.lookup (f m) = t.lookup m
  unseen : ∀ {m}, ¬ P m → t.lookup m = none
  bytes : s.bytes = t.bytes
  synced : s.synced = t.synced
  next : s.next = t.next

variable {f : M → N} {P : M → Prop} {s : Fs N} {t : Fs M} {m : M}

theorem Seen.handle (h : Seen f P s t) (hm : P m) : s.handle (f m) = t.handle m := by
  unfold Fs.handle
  rw [h.lookup hm, h.next]

theorem Seen.append (h : Seen f P s t) (i : Inode) (b : Bytes) :
    Seen f P (s.append i b) (t.append i b) :=
  ⟨h.lookup, h.unseen, by simp only [Fs.append, h.bytes], h.synced, h.next⟩

theorem Seen.sync (h : Seen f P s t) (i : Inode) : Seen f P (s.sync i) (t.sync i) :=
  ⟨h.lookup, h.unseen, h.bytes, by simp only [Fs.sync, h.bytes, h.synced], h.next⟩

theorem Seen.setLen (h : Seen f P s t) (i : Inode) (n : ℕ) : Seen f P (s.setLen i n) (t.setLen i n) :=
  ⟨h.lookup, h.unseen, by simp only [Fs.setLen, h.bytes], by simp only [Fs.setLen, h.synced], h.next⟩

/-- A name that is not seen goes. -/
theorem Seen.unlink_other (h : Seen f P s t) {n : N} (hn : ∀ m, P m → f m ≠ n) :
    Seen f P (s.unlink n) t where
  lookup hm := (lookup_unlink_ne s (hn _ hm)).trans (h.lookup hm)
  unseen := h.unseen
  bytes := h.bytes
  synced := h.synced
  next := h.next

theorem Seen.unlink (hf : Function.Injective f) (h : Seen f P s t) (m : M) :
    Seen f P (s.unlink (f m)) (t.unlink m) where
  lookup {l} hl := by
    by_cases hlm : l = m
    · subst hlm
      rw [lookup_unlink_self, lookup_unlink_self]
    · rw [lookup_unlink_ne s (hf.ne hlm), lookup_unlink_ne t hlm, h.lookup hl]
  unseen {l} hl := by
    by_cases hlm : l = m
    · rw [hlm, lookup_unlink_self]
    · rw [lookup_unlink_ne t hlm, h.unseen hl]
  bytes := h.bytes
  synced := h.synced
  next := h.next

theorem Seen.create (hf : Function.Injective f) (h : Seen f P s t) (hm : P m) :
    Seen f P (s.create (f m)) (t.create m) := by
  cases ht : t.lookup m with
  | some i => rwa [create_of_some ht, create_of_some ((h.lookup hm).trans ht)]
  | none =>
    have hs : s.lookup (f m) = none := (h.lookup hm).trans ht
    refine ⟨fun {l} hl => ?_, fun {l} hl => ?_, ?_, ?_, ?_⟩
    · by_cases hlm : l = m
      · rw [hlm, lookup_create_self_of_none hs, lookup_create_self_of_none ht, h.next]
      · rw [lookup_create_ne (hf.ne hlm), lookup_create_ne hlm, h.lookup hl]
    · have hlm : l ≠ m := fun he => hl (he ▸ hm)
      rw [lookup_create_ne hlm, h.unseen hl]
    · rw [bytes_create_of_none hs, bytes_create_of_none ht, h.bytes, h.next]
    · rw [synced_create_of_none hs, synced_create_of_none ht, h.synced, h.next]
    · rw [next_create_of_none hs, next_create_of_none ht, h.next]

/-- A map with given values at finitely many keys. -/
theorem exists_finmap (g : M → Option Inode) (l : List M) :
    ∃ d : Finmap (fun _ : M => Inode), ∀ m, d.lookup m = if m ∈ l then g m else none := by
  induction l with
  | nil => exact ⟨∅, fun m => by simp⟩
  | cons a l ih =>
    obtain ⟨d, hd⟩ := ih
    cases hg : g a with
    | none =>
      refine ⟨d.erase a, fun m => ?_⟩
      by_cases hma : m = a
      · rw [hma, Finmap.lookup_erase, if_pos List.mem_cons_self, hg]
      · rw [Finmap.lookup_erase_ne hma, hd]
        simp [hma]
    | some i =>
      refine ⟨d.insert a i, fun m => ?_⟩
      by_cases hma : m = a
      · rw [hma, Finmap.lookup_insert, if_pos List.mem_cons_self, hg]
      · rw [Finmap.lookup_insert_of_ne _ hma, hd]
        simp [hma]

/-- Every directory shows one under other names. -/
theorem exists_seen [DecidablePred P] (hf : Function.Injective f) (s : Fs N) : ∃ t, Seen f P s t := by
  obtain ⟨d, hd⟩ := exists_finmap (fun m => if P m then s.lookup (f m) else none)
    (s.dir.keys.preimage f hf.injOn).toList
  have hlook : ∀ m, d.lookup m = if P m then s.lookup (f m) else none := by
    intro m
    rw [hd]
    split_ifs with hmem hm
    · rfl
    · rfl
    · rw [Finset.mem_toList, Finset.mem_preimage, Finmap.mem_keys, ← Finmap.lookup_isSome] at hmem
      exact (Option.not_isSome_iff_eq_none.mp hmem).symm
    · rfl
  have hsome : ∀ {m i}, d.lookup m = some i → s.lookup (f m) = some i := by
    intro m i hm
    rw [hlook] at hm
    split_ifs at hm
    exact hm
  refine ⟨⟨d, s.bytes, s.synced, s.next, fun m i hm => s.dir_lt _ _ (hsome hm), fun m l i hm hl =>
    hf (s.dir_inj _ _ _ (hsome hm) (hsome hl))⟩, fun {m} hm => ?_, fun {m} hm => ?_, rfl, rfl, rfl⟩
  · exact ((hlook m).trans (if_pos hm)).symm
  · exact (hlook m).trans (if_neg hm)

end Seen

/-- What a power loss may leave. -/
def PowerLoss (fs fs' : Fs N) : Prop :=
  fs'.dir = fs.dir ∧ fs'.next = fs.next ∧
    ∀ i, ∃ n, fs.synced i ≤ n ∧ fs'.bytes i = (fs.bytes i).take n

end Fs

end FileSystem
