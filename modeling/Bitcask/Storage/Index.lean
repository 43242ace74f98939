import Mathlib.Data.Finmap
import Bitcask.Storage.IndexValue

/-!
# The sharded index

Sixteen hash maps, each behind its own lock; a key belongs to the bucket its FNV-1a hash selects.
An access takes the lock of one bucket, so each access of this file is atomic.
-/

namespace Bitcask

open LittleEndian

def indexBucketsNum : ℕ := 16

/-- The maps of the buckets. -/
abbrev Index := Fin indexBucketsNum → Finmap (fun _ : Bytes => IndexValue)

namespace Index

def fnvOffset : UInt64 := 0xcbf29ce484222325

def fnvPrime : UInt64 := 0x00000100000001b3

/-- FNV-1a, folded to 32 bits. -/
def getBucket (key : Bytes) : Fin indexBucketsNum :=
  let hash := key.foldl (fun hash byte => (hash ^^^ byte.toUInt64) * fnvPrime) fnvOffset
  ⟨((hash >>> 32) ^^^ hash).toNat % indexBucketsNum, Nat.mod_lt _ (by decide)⟩

def empty : Index := fun _ => ∅

def get (idx : Index) (key : Bytes) : Option IndexValue := (idx (getBucket key)).lookup key

def insert (idx : Index) (key : Bytes) (v : IndexValue) : Index :=
  Function.update idx (getBucket key) ((idx (getBucket key)).insert key v)

def remove (idx : Index) (key : Bytes) : Index :=
  Function.update idx (getBucket key) ((idx (getBucket key)).erase key)

/-- Every key sits only in its own bucket. -/
def Placed (idx : Index) : Prop := ∀ b key, (idx b).lookup key ≠ none → b = getBucket key

variable (idx : Index) (key : Bytes) (v : IndexValue)

@[simp] theorem get_empty : empty.get key = none := Finmap.lookup_empty key

@[simp] theorem get_insert_self : (idx.insert key v).get key = some v := by
  unfold get insert
  rw [Function.update_self]
  exact Finmap.lookup_insert _

@[simp] theorem get_remove_self : (idx.remove key).get key = none := by
  unfold get remove
  rw [Function.update_self]
  exact Finmap.lookup_erase _ _

variable {idx key v}

theorem get_insert_ne {k : Bytes} (h : k ≠ key) : (idx.insert key v).get k = idx.get k := by
  unfold get insert
  by_cases hb : getBucket k = getBucket key
  · rw [hb, Function.update_self, Finmap.lookup_insert_of_ne _ h]
  · rw [Function.update_of_ne hb]

theorem get_remove_ne {k : Bytes} (h : k ≠ key) : (idx.remove key).get k = idx.get k := by
  unfold get remove
  by_cases hb : getBucket k = getBucket key
  · rw [hb, Function.update_self, Finmap.lookup_erase_ne h]
  · rw [Function.update_of_ne hb]

/-- What each bucket holds after an insertion. -/
theorem lookup_insert (b : Fin indexBucketsNum) (k : Bytes) :
    ((idx.insert key v) b).lookup k =
      if b = getBucket key ∧ k = key then some v else (idx b).lookup k := by
  unfold insert
  by_cases hb : b = getBucket key
  · subst hb
    rw [Function.update_self]
    by_cases hk : k = key
    · rw [if_pos ⟨rfl, hk⟩, hk]
      exact Finmap.lookup_insert _
    · rw [if_neg fun h => hk h.2, Finmap.lookup_insert_of_ne _ hk]
  · rw [Function.update_of_ne hb, if_neg fun h => hb h.1]

theorem lookup_remove (b : Fin indexBucketsNum) (k : Bytes) :
    ((idx.remove key) b).lookup k =
      if b = getBucket key ∧ k = key then none else (idx b).lookup k := by
  unfold remove
  by_cases hb : b = getBucket key
  · subst hb
    rw [Function.update_self]
    by_cases hk : k = key
    · rw [if_pos ⟨rfl, hk⟩, hk]
      exact Finmap.lookup_erase _ _
    · rw [if_neg fun h => hk h.2, Finmap.lookup_erase_ne hk]
  · rw [Function.update_of_ne hb, if_neg fun h => hb h.1]

theorem ext_lookup {idx idx' : Index} (h : ∀ b k, (idx b).lookup k = (idx' b).lookup k) :
    idx = idx' := funext fun b => Finmap.ext_lookup (h b)

theorem placed_empty : Placed empty := fun _ key h => absurd (Finmap.lookup_empty key) h

theorem Placed.insert (h : Placed idx) : Placed (idx.insert key v) := by
  intro b k hk
  unfold Index.insert at hk
  by_cases hb : b = getBucket key
  · subst hb
    rw [Function.update_self] at hk
    by_cases hkk : k = key
    · rw [hkk]
    · rw [Finmap.lookup_insert_of_ne _ hkk] at hk
      exact h _ k hk
  · rw [Function.update_of_ne hb] at hk
    exact h b k hk

theorem Placed.remove (h : Placed idx) : Placed (idx.remove key) := by
  intro b k hk
  unfold Index.remove at hk
  by_cases hb : b = getBucket key
  · subst hb
    rw [Function.update_self] at hk
    by_cases hkk : k = key
    · rw [hkk]
    · rw [Finmap.lookup_erase_ne hkk] at hk
      exact h _ k hk
  · rw [Function.update_of_ne hb] at hk
    exact h b k hk

end Index

end Bitcask
