/-
# Authenticated stream ciphers

A stream cipher masks each symbol of a text by its position, and masking twice
changes nothing. Authentication adds a tag computed from the ciphertext. Encrypting
is masking and tagging; decryption accepts a ciphertext with a tag exactly when both
are the encryption of the text it returns.
-/

import Mathlib.Data.List.Basic

/-- A cipher over arbitrary symbols. The mask of one position undoes itself. -/
structure StreamCipher (Key Nonce Symbol Tag : Type) where
  mask : Key → Nonce → ℕ → Symbol → Symbol
  mask_mask : ∀ key nonce position symbol,
    mask key nonce position (mask key nonce position symbol) = symbol
  authTag : Key → Nonce → List Symbol → Tag

namespace StreamCipher

variable {Key Nonce Symbol Tag : Type} (cipher : StreamCipher Key Nonce Symbol Tag)

/-- Mask a piece of a text that starts at `offset`. -/
def crypt (key : Key) (nonce : Nonce) (offset : ℕ) (text : List Symbol) : List Symbol :=
  text.mapIdx fun i symbol => cipher.mask key nonce (offset + i) symbol

@[simp]
theorem length_crypt (key : Key) (nonce : Nonce) (offset : ℕ) (text : List Symbol) :
    (cipher.crypt key nonce offset text).length = text.length := by
  simp [crypt]

@[simp]
theorem crypt_crypt (key : Key) (nonce : Nonce) (offset : ℕ) (text : List Symbol) :
    cipher.crypt key nonce offset (cipher.crypt key nonce offset text) = text := by
  apply List.ext_getElem
  · simp
  · intro i _ _
    simp [crypt, cipher.mask_mask]

/-- The ciphertext of a text and its tag. -/
def encrypt (key : Key) (nonce : Nonce) (text : List Symbol) : List Symbol × Tag :=
  (cipher.crypt key nonce 0 text,
    cipher.authTag key nonce (cipher.crypt key nonce 0 text))

@[simp]
theorem length_encrypt_fst (key : Key) (nonce : Nonce) (text : List Symbol) :
    (cipher.encrypt key nonce text).1.length = text.length :=
  cipher.length_crypt key nonce 0 text

/-- The text behind a ciphertext, if the tag is the ciphertext's. -/
def decrypt [DecidableEq Tag] (key : Key) (nonce : Nonce) (ciphertext : List Symbol)
    (tag : Tag) : Option (List Symbol) :=
  if cipher.authTag key nonce ciphertext = tag then
    some (cipher.crypt key nonce 0 ciphertext)
  else none

variable [DecidableEq Tag]

/-- Nothing but the encryption of a text decrypts to it. -/
theorem decrypt_eq_some_iff {key : Key} {nonce : Nonce} {ciphertext text : List Symbol}
    {tag : Tag} :
    cipher.decrypt key nonce ciphertext tag = some text ↔
      cipher.encrypt key nonce text = (ciphertext, tag) := by
  constructor
  · intro hdecrypt
    by_cases htag : cipher.authTag key nonce ciphertext = tag
    · rw [decrypt, if_pos htag] at hdecrypt
      cases hdecrypt
      rw [encrypt, crypt_crypt, htag]
    · rw [decrypt, if_neg htag] at hdecrypt
      cases hdecrypt
  · intro hencrypt
    obtain ⟨rfl, rfl⟩ := Prod.mk.inj hencrypt
    rw [decrypt, if_pos rfl, crypt_crypt]

theorem decrypt_encrypt (key : Key) (nonce : Nonce) (text : List Symbol) :
    cipher.decrypt key nonce (cipher.encrypt key nonce text).1
      (cipher.encrypt key nonce text).2 = some text :=
  cipher.decrypt_eq_some_iff.mpr rfl

/-- A tag that is not the ciphertext's closes it. -/
theorem decrypt_eq_none_iff {key : Key} {nonce : Nonce} {ciphertext : List Symbol}
    {tag : Tag} :
    cipher.decrypt key nonce ciphertext tag = none ↔
      cipher.authTag key nonce ciphertext ≠ tag := by
  rw [decrypt]
  split <;> simp_all

/-- In particular a key under which the ciphertext has another tag. -/
theorem decrypt_encrypt_eq_none {key other : Key} {nonce : Nonce} {text : List Symbol}
    (htag : cipher.authTag key nonce (cipher.encrypt key nonce text).1 ≠
      cipher.authTag other nonce (cipher.encrypt key nonce text).1) :
    cipher.decrypt other nonce (cipher.encrypt key nonce text).1
      (cipher.encrypt key nonce text).2 = none :=
  cipher.decrypt_eq_none_iff.mpr htag.symm

end StreamCipher
