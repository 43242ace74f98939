import Mathlib.Tactic

/-!
# Errors of the store

The error values of the storage layer, and the two ways a call can fail to return a value: an
error, or a panic of the thread (an arithmetic overflow, underflow or division by zero, which
unwinds and poisons the locks the thread holds).
-/

namespace Bitcask

/-- The kinds of `io::Error` the storage and network code tells apart. -/
inductive ErrorKind
  | unexpectedEof
  | invalidData
  | notFound
  | other
  deriving DecidableEq, Repr

/-- An `io::Error`: its kind and its message. -/
structure IoError where
  kind : ErrorKind
  msg : String
  deriving DecidableEq, Repr

/-- The error of a call on a path that does not exist. -/
def fileNotFound : IoError := ⟨.notFound, "No such file or directory (os error 2)"⟩

/-- `KvsError`. The transparent wrappers of foreign errors keep what a caller can match on. -/
inductive KvsError
  | io (e : IoError)
  | keyNotFound
  | unexpectedCommandType
  | corruption
  | clock
  | utf8
  | missingDataFile (id : ℕ)
  | lockPoisoned
  | storeLocked
  | invalidData (msg : String)
  | serverInternal
  | engineMismatch (found requested : String)
  deriving DecidableEq, Repr

/-- A call that does not return a value returned an error or panicked. -/
inductive Fault
  | error (e : KvsError)
  | panic
  deriving DecidableEq, Repr

/-- The `?` operator on an `io::Result`. -/
def ofIo {α : Type} : Except IoError α → Except KvsError α
  | .ok a => .ok a
  | .error e => .error (.io e)

/-- The `?` operator inside code that may also panic. -/
def ofKvs {α : Type} : Except KvsError α → Except Fault α
  | .ok a => .ok a
  | .error e => .error (.error e)

@[simp] theorem ofIo_eq_ok {α : Type} {r : Except IoError α} {a : α} :
    ofIo r = .ok a ↔ r = .ok a := by
  cases r <;> simp [ofIo]

@[simp] theorem ofKvs_eq_ok {α : Type} {r : Except KvsError α} {a : α} :
    ofKvs r = .ok a ↔ r = .ok a := by
  cases r <;> simp [ofKvs]

theorem ofKvs_ok {α : Type} (a : α) : ofKvs (.ok a) = .ok a := rfl

theorem ofKvs_bind {α β : Type} (x : Except KvsError α) (f : α → Except KvsError β) :
    ofKvs (x >>= f) = ofKvs x >>= fun a => ofKvs (f a) := by
  cases x <;> rfl

theorem ofKvs_ite {α : Type} {p : Prop} [Decidable p] (a b : Except KvsError α) :
    ofKvs (if p then a else b) = if p then ofKvs a else ofKvs b := by
  split <;> rfl

/-- A computation in sequence returns a value only if both parts do. -/
theorem bind_eq_ok {ε α β : Type} {x : Except ε α} {f : α → Except ε β} {b : β} :
    (x >>= f) = .ok b ↔ ∃ a, x = .ok a ∧ f a = .ok b := by
  cases x <;> simp [bind, Except.bind]

/-- A call that returns no value returns an error. -/
theorem exists_error {ε α : Type} {x : Except ε α} (h : ∀ a, x ≠ .ok a) : ∃ e, x = .error e := by
  cases x with
  | error e => exact ⟨e, rfl⟩
  | ok a => exact absurd rfl (h a)

end Bitcask
