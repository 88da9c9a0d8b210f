/-
# The EVP cipher interface for AES-256-GCM

The calls of OpenSSL that the library makes, on an explicit context. GCM is a
stream cipher with a tag over the ciphertext, so the context keeps the key, the
IV, and the ciphertext processed so far. What the surrounding machine may refuse
(random bytes, a context, its initialisation) is part of the environment.

An update takes its length as an `int`. It fails if that is negative and otherwise
processes that many bytes from the front of the buffer, whatever the buffer's size.
-/

import Dht.Core.Outcome
import Dht.Lib.StreamCipher
import Mathlib.Data.Vector.Basic
import Mathlib.Tactic.Simps.Basic

namespace Dht

abbrev AesKey := List.Vector UInt8 aesKeyLength
abbrev Iv := List.Vector UInt8 aesIvLength
abbrev Tag := List.Vector UInt8 aesTagLength

/-- The environment of one call: AES-256-GCM and what the system grants. -/
structure OpenSSL where
  gcm : StreamCipher AesKey Iv UInt8 Tag
  /-- What `RAND_bytes` writes, absent when it fails. -/
  randBytes : Option Iv
  /-- `EVP_CIPHER_CTX_new` returns a context. -/
  newContext : Bool
  /-- `EVP_EncryptInit_ex` and `EVP_DecryptInit_ex` succeed. -/
  initContext : Bool

/-- `EVP_CIPHER_CTX` after its initialisation. -/
structure CipherCtx where
  encrypting : Bool
  key : AesKey
  iv : Iv
  /-- The ciphertext seen so far, over which the tag is computed. -/
  ciphertext : Bytes
  tag : Option Tag

namespace OpenSSL

variable (ssl : OpenSSL)

/-- `EVP_EncryptInit_ex` and `EVP_DecryptInit_ex` on a new context. -/
@[simps]
def cipherInit (encrypting : Bool) (key : AesKey) (iv : Iv) : CipherCtx where
  encrypting := encrypting
  key := key
  iv := iv
  ciphertext := []
  tag := none

/-- `EVP_EncryptUpdate`: the bytes written and the context afterwards. -/
def encryptUpdate (ctx : CipherCtx) (input : Bytes) (inl : ℤ) :
    Option (Bytes × CipherCtx) :=
  if inl < 0 then none
  else if ctx.encrypting then
    let out := ssl.gcm.crypt ctx.key ctx.iv ctx.ciphertext.length (input.take inl.toNat)
    some (out, { ctx with ciphertext := ctx.ciphertext ++ out })
  else none

/-- `EVP_EncryptFinal_ex` fixes the tag and adds no bytes. -/
def encryptFinal (ctx : CipherCtx) : Option (Bytes × CipherCtx) :=
  if ctx.encrypting then
    some ([], { ctx with tag := some (ssl.gcm.authTag ctx.key ctx.iv ctx.ciphertext) })
  else none

/-- `EVP_DecryptUpdate`: the plaintext is written before it is authenticated. -/
def decryptUpdate (ctx : CipherCtx) (input : Bytes) (inl : ℤ) :
    Option (Bytes × CipherCtx) :=
  if inl < 0 then none
  else if ctx.encrypting then none
  else
    let taken := input.take inl.toNat
    some (ssl.gcm.crypt ctx.key ctx.iv ctx.ciphertext.length taken,
      { ctx with ciphertext := ctx.ciphertext ++ taken })

/-- `EVP_DecryptFinal_ex` compares the tag that was set and adds no bytes. -/
def decryptFinal (ctx : CipherCtx) : Option Bytes :=
  if ctx.encrypting then none
  else if ctx.tag = some (ssl.gcm.authTag ctx.key ctx.iv ctx.ciphertext) then some []
  else none

end OpenSSL

/-- `EVP_CTRL_GCM_GET_TAG`. -/
def CipherCtx.getTag (ctx : CipherCtx) : Option Tag := ctx.tag

/-- `EVP_CTRL_GCM_SET_TAG`, which only a decrypting context takes. -/
def CipherCtx.setTag (ctx : CipherCtx) (tag : Tag) : Option CipherCtx :=
  if ctx.encrypting then none else some { ctx with tag := some tag }

end Dht
