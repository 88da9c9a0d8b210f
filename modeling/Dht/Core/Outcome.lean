/-
# Outcomes, configuration and machine integers

A call of the library returns a value, throws one of its own exceptions or one of
the standard library's, or leaves the defined behaviour of the language. The last
case is an outcome like the others here: a result that says `ok` therefore also
says that no `int` overflowed and no vector was read outside its bounds.

Strings and byte vectors are both lists of bytes, because the code passes one as
the other without conversion.
-/

import Mathlib.Algebra.Order.Ring.Int
import Mathlib.Data.List.Basic

namespace Dht

/-- `std::string` and `std::vector<uint8_t>`. -/
abbrev Bytes := List UInt8

/-- The bytes of a literal of the source, all of which are ASCII. -/
def ascii (literal : String) : Bytes := literal.toList.map Char.toUInt8

/-! ## Exceptions -/

/-- The exception classes of `exceptions.hpp`, with what their constructors are given. -/
inductive DhtError
  | dhtError (message : Bytes)
  | invalidPasswordError
  | weakPasswordError
  | corruptedFileError
  | decryptionFailedError
  | unsupportedFormatError (format : Bytes)
  | fileNotFoundError (path : Bytes)
  deriving DecidableEq

/-- Every way a call can end without a value. -/
inductive Failure
  | thrown (error : DhtError)
  | outOfRange
  | invalidArgument
  | lengthError
  /-- `exit`, which a library calls in place of the caller. -/
  | exited
  | undefinedBehaviour
  deriving DecidableEq

/-- Whether the call ended by an exception. -/
def Failure.IsThrown : Failure → Prop
  | .thrown _ => True
  | .outOfRange => True
  | .invalidArgument => True
  | .lengthError => True
  | .exited => False
  | .undefinedBehaviour => False

/-- The result of a call. -/
abbrev Outcome (α : Type) := Except Failure α

/-- `throw` of one of the library's own exceptions. -/
def throwing {α : Type} (error : DhtError) : Outcome α := .error (.thrown error)

/-- Behaviour the language leaves undefined. -/
def undefined {α : Type} : Outcome α := .error .undefinedBehaviour

/-- `if (!value) throw`. -/
def orThrow {α : Type} (error : DhtError) : Option α → Outcome α
  | some value => .ok value
  | none => throwing error

/-- `if (!condition) throw`. -/
def require (condition : Bool) (error : DhtError) : Outcome Unit :=
  if condition then .ok () else throwing error

@[simp]
theorem ok_bind {α β : Type} (value : α) (next : α → Outcome β) :
    ((.ok value : Outcome α) >>= next) = next value := rfl

@[simp]
theorem throwing_bind {α β : Type} (error : DhtError) (next : α → Outcome β) :
    ((throwing error : Outcome α) >>= next) = throwing error := rfl

@[simp]
theorem undefined_bind {α β : Type} (next : α → Outcome β) :
    ((undefined : Outcome α) >>= next) = undefined := rfl

/-- A computation returns if its parts do. -/
theorem bind_eq_ok_iff {α β : Type} {first : Outcome α} {next : α → Outcome β} {result : β} :
    (first >>= next) = .ok result ↔ ∃ value, first = .ok value ∧ next value = .ok result := by
  cases first with
  | error failure =>
      refine ⟨fun hresult => ?_, fun hparts => ?_⟩
      · cases hresult
      · obtain ⟨_, hfirst, _⟩ := hparts
        cases hfirst
  | ok value =>
      refine ⟨fun hresult => ⟨value, rfl, hresult⟩, fun hparts => ?_⟩
      obtain ⟨_, hvalue, hnext⟩ := hparts
      cases hvalue
      exact hnext

@[simp]
theorem orThrow_some {α : Type} (error : DhtError) (value : α) :
    orThrow error (some value) = .ok value := rfl

@[simp]
theorem orThrow_none {α : Type} (error : DhtError) :
    orThrow error (none : Option α) = throwing error := rfl

theorem orThrow_eq_ok_iff {α : Type} {error : DhtError} {result : Option α} {value : α} :
    orThrow error result = .ok value ↔ result = some value := by
  cases result with
  | none => simp [throwing]
  | some other => simp

@[simp]
theorem require_true (error : DhtError) : require true error = .ok () := rfl

section Loops

variable {α β σ : Type} {f : α → Outcome β} {body : σ → α → Outcome σ}

/-- The last turn of a loop. -/
theorem foldlM_concat_eq_ok_iff {turns : List α} {last : α} {start stop : σ} :
    (turns ++ [last]).foldlM body start = .ok stop ↔
      ∃ before, turns.foldlM body start = .ok before ∧ body before last = .ok stop := by
  have hlast (before : σ) : [last].foldlM body before = body before last := by
    rw [List.foldlM_cons]
    exact bind_pure _
  rw [List.foldlM_append, bind_eq_ok_iff]
  simp only [hlast]

/-- A loop none of whose turns fails in a state that satisfies an invariant. -/
theorem foldlM_eq_ok_of_invariant (Inv : σ → Prop) {next : σ → α → σ} {turns : List α}
    (hturns : ∀ turn ∈ turns, ∀ state, Inv state →
      body state turn = .ok (next state turn) ∧ Inv (next state turn))
    {start : σ} (hstart : Inv start) :
    turns.foldlM body start = .ok (turns.foldl next start) := by
  induction turns generalizing start with
  | nil => rfl
  | cons turn turns ih =>
      rw [List.forall_mem_cons] at hturns
      obtain ⟨hturn, hnext⟩ := hturns.1 start hstart
      rw [List.foldlM_cons, hturn, ok_bind, ih hturns.2 hnext, List.foldl_cons]

/-- A loop none of whose turns fails. -/
theorem foldlM_eq_ok {next : σ → α → σ} {turns : List α}
    (hturns : ∀ turn ∈ turns, ∀ state, body state turn = .ok (next state turn)) (start : σ) :
    turns.foldlM body start = .ok (turns.foldl next start) :=
  foldlM_eq_ok_of_invariant (fun _ => True)
    (fun turn hturn state _ => ⟨hturns turn hturn state, trivial⟩) trivial

/-- The results of a loop that appends one per turn. -/
theorem mapM_cons_eq_ok_iff {value : α} {values : List α} {results : List β} :
    (value :: values).mapM f = .ok results ↔
      ∃ result rest, f value = .ok result ∧ values.mapM f = .ok rest ∧
        results = result :: rest := by
  rw [List.mapM_cons, bind_eq_ok_iff]
  simp only [bind_eq_ok_iff]
  refine ⟨fun ⟨result, hresult, rest, hrest, hresults⟩ => ?_,
    fun ⟨result, rest, hresult, hrest, hresults⟩ => ?_⟩
  · exact ⟨result, rest, hresult, hrest, (Except.ok.inj hresults).symm⟩
  · exact ⟨result, hresult, rest, hrest, congrArg Except.ok hresults.symm⟩

theorem mapM_eq_ok {g : α → β} {values : List α}
    (hvalues : ∀ value ∈ values, f value = .ok (g value)) :
    values.mapM f = .ok (values.map g) := by
  induction values with
  | nil => rfl
  | cons value values ih =>
      rw [List.forall_mem_cons] at hvalues
      exact mapM_cons_eq_ok_iff.mpr ⟨_, _, hvalues.1, ih hvalues.2, rfl⟩

theorem exists_mapM_iff (values : List α) :
    (∃ results, values.mapM f = .ok results) ↔
      ∀ value ∈ values, ∃ result, f value = .ok result := by
  induction values with
  | nil => exact ⟨fun _ _ hvalue => absurd hvalue List.not_mem_nil, fun _ => ⟨[], rfl⟩⟩
  | cons value values ih =>
      simp only [mapM_cons_eq_ok_iff, List.forall_mem_cons, ← ih]
      refine ⟨fun ⟨_, result, rest, hresult, hrest, _⟩ => ⟨⟨result, hresult⟩, ⟨rest, hrest⟩⟩,
        fun ⟨⟨result, hresult⟩, ⟨rest, hrest⟩⟩ => ⟨_, result, rest, hresult, hrest, rfl⟩⟩

theorem length_of_mapM {values : List α} {results : List β}
    (hresults : values.mapM f = .ok results) : results.length = values.length := by
  induction values generalizing results with
  | nil =>
      cases hresults
      rfl
  | cons value values ih =>
      obtain ⟨result, rest, -, hrest, rfl⟩ := mapM_cons_eq_ok_iff.mp hresults
      rw [List.length_cons, List.length_cons, ih hrest]

end Loops

/-- Outcomes are compared in evaluations of the model. -/
instance {α : Type} [DecidableEq α] : DecidableEq (Outcome α)
  | .ok first, .ok second =>
      decidable_of_iff (first = second) (by simp)
  | .error first, .error second =>
      decidable_of_iff (first = second) (by simp)
  | .ok _, .error _ => isFalse (by simp)
  | .error _, .ok _ => isFalse (by simp)

/-! ## Configuration -/

def minPasswordLength : ℕ := 32
def aesKeyLength : ℕ := 32
def aesIvLength : ℕ := 12
def aesTagLength : ℕ := 16

/-! ## Vectors -/

/-- `vector::resize`, which fills with zeros. -/
def resize (vector : Bytes) (size : ℕ) : Bytes :=
  vector.take size ++ List.replicate (size - vector.length) 0

/-- A `memcpy` of `bytes` to `position` inside a vector. -/
def writeAt (vector : Bytes) (position : ℕ) (bytes : Bytes) : Bytes :=
  vector.take position ++ bytes ++ vector.drop (position + bytes.length)

/-- Writing at the front and cutting to what was written leaves just that. -/
theorem resize_writeAt_zero (vector bytes : Bytes) :
    resize (writeAt vector 0 bytes) bytes.length = bytes := by
  simp [resize, writeAt, Nat.sub_eq_zero_of_le]

/-- Writing nothing changes nothing. -/
theorem writeAt_nil (vector : Bytes) (position : ℕ) :
    writeAt vector position [] = vector := by
  simp [writeAt]

/-- `substr` to the end, which throws for a position behind it. -/
def substr (text : Bytes) (position : ℕ) : Outcome Bytes :=
  if text.length < position then .error .outOfRange else .ok (text.drop position)

/-! ## Machine integers -/

/-- Conversion of an integer to `int`, modulo `2 ^ 32`. -/
def toInt32 (value : ℤ) : ℤ :=
  if value % 2 ^ 32 < 2 ^ 31 then value % 2 ^ 32 else value % 2 ^ 32 - 2 ^ 32

/-- The value of an `int` operation. Signed overflow is undefined. -/
def intResult (value : ℤ) : Outcome ℤ :=
  if -2 ^ 31 ≤ value ∧ value < 2 ^ 31 then .ok value else undefined

/-- An unchecked `vector::operator[]`. -/
def vectorAt {α : Type} (vector : List α) (index : ℤ) : Outcome α :=
  if 0 ≤ index then
    match vector[index.toNat]? with
    | some value => .ok value
    | none => undefined
  else undefined

/-- `vector[index] = value`, unchecked. -/
def vectorSet {α : Type} (vector : List α) (index : ℤ) (value : α) : Outcome (List α) :=
  if 0 ≤ index ∧ index < vector.length then .ok (vector.set index.toNat value) else undefined

/-- `vector(size, value)`. A negative `int` becomes a size that no vector can have. -/
def newVector {α : Type} (size : ℤ) (value : α) : Outcome (List α) :=
  if size < 0 then .error .lengthError else .ok (List.replicate size.toNat value)

theorem toInt32_bounds (value : ℤ) : -2 ^ 31 ≤ toInt32 value ∧ toInt32 value < 2 ^ 31 := by
  unfold toInt32
  split <;> omega

theorem toInt32_of_bounds {value : ℤ} (hlow : -2 ^ 31 ≤ value) (hhigh : value < 2 ^ 31) :
    toInt32 value = value := by
  unfold toInt32
  split <;> omega

/-- The conversion loses a multiple of `2 ^ 32`. -/
theorem exists_toInt32_eq (value : ℤ) : ∃ k : ℤ, value = toInt32 value + 2 ^ 32 * k := by
  refine ⟨(value - toInt32 value) / 2 ^ 32, ?_⟩
  unfold toInt32
  split <;> omega

@[simp]
theorem toInt32_add_mul (value k : ℤ) : toInt32 (value + 2 ^ 32 * k) = toInt32 value := by
  rw [toInt32, Int.add_mul_emod_self_left, toInt32]

@[simp]
theorem toInt32_toInt32_add (first second : ℤ) :
    toInt32 (toInt32 first + second) = toInt32 (first + second) := by
  obtain ⟨k, hk⟩ := exists_toInt32_eq first
  conv_rhs => rw [hk, add_right_comm, toInt32_add_mul]

@[simp]
theorem toInt32_toInt32_mul (first second : ℤ) :
    toInt32 (toInt32 first * second) = toInt32 (first * second) := by
  obtain ⟨k, hk⟩ := exists_toInt32_eq first
  conv_rhs => rw [hk, add_mul, mul_assoc, toInt32_add_mul]

@[simp]
theorem toInt32_add_toInt32 (first second : ℤ) :
    toInt32 (first + toInt32 second) = toInt32 (first + second) := by
  rw [add_comm, toInt32_toInt32_add, add_comm]

/-- Lengths below `2 ^ 31` survive the conversion to `int`. -/
theorem toInt32_of_lt {value : ℕ} (hlt : value < 2 ^ 31) :
    toInt32 value = value := by
  unfold toInt32
  split <;> omega

/-- A length that comes out non-negative has lost a multiple of `2 ^ 32`. -/
theorem toInt32_of_mod_lt {value : ℕ} (hlt : value % 2 ^ 32 < 2 ^ 31) :
    toInt32 value = (value % 2 ^ 32 : ℕ) := by
  unfold toInt32
  split <;> omega

/-- The other lengths come out negative. -/
theorem toInt32_neg_iff (value : ℕ) :
    toInt32 value < 0 ↔ 2 ^ 31 ≤ value % 2 ^ 32 := by
  unfold toInt32
  split <;> omega

@[simp]
theorem intResult_natCast {value : ℕ} (hlt : value < 2 ^ 31) :
    intResult (value : ℤ) = .ok (value : ℤ) := by
  rw [intResult, if_pos (by omega)]

theorem lt_of_intResult {value result : ℤ} (hresult : intResult value = .ok result) :
    value < 2 ^ 31 := by
  rw [intResult] at hresult
  split at hresult
  · next hrange => exact hrange.2
  · cases hresult

@[simp]
theorem newVector_natCast {α : Type} (size : ℕ) (value : α) :
    newVector (size : ℤ) value = .ok (List.replicate size value) := by
  rw [newVector, if_neg (by omega), Int.toNat_natCast]

/-- A write inside the bounds. -/
theorem vectorSet_natCast {α : Type} {vector : List α} {index : ℕ}
    (hindex : index < vector.length) (value : α) :
    vectorSet vector (index : ℤ) value = .ok (vector.set index value) := by
  rw [vectorSet, if_pos (by omega), Int.toNat_natCast]

theorem vectorAt_of_getElem? {α : Type} {vector : List α} {index : ℕ} {value : α}
    (hvalue : vector[index]? = some value) : vectorAt vector (index : ℤ) = .ok value := by
  rw [vectorAt, if_pos (by omega), Int.toNat_natCast, hvalue]

/-- A read inside the bounds. -/
theorem vectorAt_eq_getD {α : Type} {vector : List α} {index : ℕ}
    (hindex : index < vector.length) (default : α) :
    vectorAt vector (index : ℤ) = .ok (vector.getD index default) := by
  simp [vectorAt, hindex]

end Dht
