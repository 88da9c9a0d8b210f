/-
# The encrypted envelope

`encryptData` writes `iv | tag | ciphertext`; `decryptData` cuts a blob at the same
offsets and returns the plaintext only if the tag is right. Both pass a `size_t` as
the `int` length of an update, so what the cipher sees of a buffer is its front,
of a length reduced modulo `2 ^ 32`, and nothing at all if that is negative.

Below that conversion the envelope is exact. At and above `2 ^ 32` bytes it is
not: the encryptor drops data and the decryptor ignores bytes of the blob, and in
both cases the tag is right.
-/

import Dht.Crypto.Evp

namespace Dht

/-- `validatePassword`. -/
def validatePassword (password : Bytes) : Outcome Unit :=
  if password.length < minPasswordLength then throwing .weakPasswordError else .ok ()

/-- A bounded copy into a vector does not change its size. -/
theorem length_keyBytes (password : Bytes) :
    (writeAt (List.replicate aesKeyLength 0) 0
      (password.take (min password.length aesKeyLength))).length = aesKeyLength := by
  simp only [writeAt, List.length_append, List.length_take, List.length_drop,
    List.length_replicate]
  omega

/-- The key of a password: a bounded copy into a zeroed vector. The two functions
that use it both spell it out. -/
def passwordKey (password : Bytes) : AesKey :=
  let copyLen := min password.length aesKeyLength
  ⟨writeAt (List.replicate aesKeyLength 0) 0 (password.take copyLen), length_keyBytes password⟩

/-- The cipher calls of `encryptData`: update, finish and fetch the tag. -/
def encryptStream (ssl : OpenSSL) (ctx : CipherCtx) (data : Bytes) :
    Outcome (Bytes × Tag) := do
  let ciphertext := List.replicate (data.length + 16) 0
  -- `data.size()` becomes the `int` argument
  let (out, ctx) ← orThrow (.dhtError (ascii "Encryption failed"))
    (ssl.encryptUpdate ctx data (toInt32 data.length))
  let ciphertext := writeAt ciphertext 0 out
  let (rest, ctx) ← orThrow (.dhtError (ascii "Encryption finalization failed"))
    (ssl.encryptFinal ctx)
  let ciphertext := writeAt ciphertext out.length rest
  let ciphertext := resize ciphertext (out.length + rest.length)
  let tag ← orThrow (.dhtError (ascii "Failed to get GCM tag")) ctx.getTag
  pure (ciphertext, tag)

/-- `encryptData`. -/
def encryptData (ssl : OpenSSL) (data password : Bytes) : Outcome Bytes := do
  validatePassword password
  let iv ← orThrow (.dhtError (ascii "Failed to generate IV")) ssl.randBytes
  require ssl.newContext (.dhtError (ascii "Failed to create cipher context"))
  require ssl.initContext (.dhtError (ascii "Failed to initialize encryption"))
  let (ciphertext, tag) ←
    encryptStream ssl (OpenSSL.cipherInit true (passwordKey password) iv) data
  pure (iv.toList ++ tag.toList ++ ciphertext)

/-- The cipher calls of `decryptData`: update, set the tag and check it. -/
def decryptStream (ssl : OpenSSL) (ctx : CipherCtx) (ciphertext : Bytes) (tag : Tag) :
    Outcome Bytes := do
  let plaintext := List.replicate ciphertext.length 0
  -- `ciphertext.size()` becomes the `int` argument
  let (out, ctx) ← orThrow .decryptionFailedError
    (ssl.decryptUpdate ctx ciphertext (toInt32 ciphertext.length))
  let plaintext := writeAt plaintext 0 out
  let ctx ← orThrow .decryptionFailedError (ctx.setTag tag)
  let rest ← orThrow .invalidPasswordError (ssl.decryptFinal ctx)
  let plaintext := writeAt plaintext out.length rest
  pure (resize plaintext (out.length + rest.length))

/-- The bytes a blob of sufficient size starts with. -/
def blobIv (blob : Bytes) (hsize : ¬ blob.length < aesIvLength + aesTagLength) : Iv :=
  ⟨blob.take aesIvLength, by
    rw [List.length_take]
    omega⟩

/-- The bytes behind the IV. -/
def blobTag (blob : Bytes) (hsize : ¬ blob.length < aesIvLength + aesTagLength) : Tag :=
  ⟨(blob.drop aesIvLength).take aesTagLength, by
    rw [List.length_take, List.length_drop]
    omega⟩

/-- `decryptData`. -/
def decryptData (ssl : OpenSSL) (encryptedData password : Bytes) : Outcome Bytes :=
  if password.length < minPasswordLength then throwing .weakPasswordError
  else if hsize : encryptedData.length < aesIvLength + aesTagLength then
    throwing .corruptedFileError
  else do
    let iv := blobIv encryptedData hsize
    let tag := blobTag encryptedData hsize
    let ciphertext := encryptedData.drop (aesIvLength + aesTagLength)
    require ssl.newContext (.dhtError (ascii "Failed to create cipher context"))
    require ssl.initContext .decryptionFailedError
    decryptStream ssl (OpenSSL.cipherInit false (passwordKey password) iv) ciphertext tag

/-! ## The key -/

/-- Only the first 32 bytes of an admitted password reach the key. -/
theorem passwordKey_toList {password : Bytes} (hlong : minPasswordLength ≤ password.length) :
    (passwordKey password).toList = password.take aesKeyLength := by
  have hcopy : min password.length aesKeyLength = aesKeyLength := Nat.min_eq_right hlong
  have htake : (password.take aesKeyLength).length = aesKeyLength := by
    rw [List.length_take]
    exact Nat.min_eq_left hlong
  change writeAt (List.replicate aesKeyLength 0) 0
    (password.take (min password.length aesKeyLength)) = _
  rw [hcopy, writeAt, htake]
  simp

theorem passwordKey_eq_iff {first second : Bytes}
    (hfirst : minPasswordLength ≤ first.length)
    (hsecond : minPasswordLength ≤ second.length) :
    passwordKey first = passwordKey second ↔
      first.take aesKeyLength = second.take aesKeyLength := by
  rw [← passwordKey_toList hfirst, ← passwordKey_toList hsecond]
  exact ⟨congrArg List.Vector.toList, List.Vector.eq _ _⟩

/-! ## What the cipher sees -/

/-- The part of a buffer an update processes when it is passed the buffer's size. -/
def narrowed (buffer : Bytes) : Option Bytes :=
  if toInt32 buffer.length < 0 then none
  else some (buffer.take (toInt32 buffer.length).toNat)

theorem narrowed_of_neg {buffer : Bytes} (hneg : toInt32 buffer.length < 0) :
    narrowed buffer = none := by
  rw [narrowed, if_pos hneg]

theorem narrowed_of_not_neg {buffer : Bytes} (hneg : ¬ toInt32 buffer.length < 0) :
    narrowed buffer = some (buffer.take (toInt32 buffer.length).toNat) := by
  rw [narrowed, if_neg hneg]

theorem narrowed_eq_none_iff {buffer : Bytes} :
    narrowed buffer = none ↔ 2 ^ 31 ≤ buffer.length % 2 ^ 32 := by
  rw [← toInt32_neg_iff]
  by_cases hneg : toInt32 buffer.length < 0
  · simp [narrowed_of_neg hneg, hneg]
  · simp [narrowed_of_not_neg hneg, hneg]

/-- What is processed is a front of the buffer, of its size modulo `2 ^ 32`. -/
theorem narrowed_eq_some_iff {buffer part : Bytes} :
    narrowed buffer = some part ↔
      buffer.length % 2 ^ 32 < 2 ^ 31 ∧ part = buffer.take (buffer.length % 2 ^ 32) := by
  by_cases hlt : buffer.length % 2 ^ 32 < 2 ^ 31
  · have hneg : ¬ toInt32 buffer.length < 0 := by
      rw [toInt32_neg_iff]
      omega
    rw [narrowed_of_not_neg hneg, toInt32_of_mod_lt hlt, Int.toNat_natCast, Option.some.injEq]
    exact ⟨fun h => ⟨hlt, h.symm⟩, fun h => h.2.symm⟩
  · rw [narrowed_eq_none_iff.mpr (by omega)]
    constructor
    · intro h
      cases h
    · intro h
      exact absurd h.1 hlt

/-- Buffers below `2 ^ 31` bytes are processed whole. -/
theorem narrowed_of_lt {buffer : Bytes} (hlt : buffer.length < 2 ^ 31) :
    narrowed buffer = some buffer := by
  have hmod : buffer.length % 2 ^ 32 = buffer.length := by omega
  rw [narrowed_eq_some_iff, hmod]
  exact ⟨hlt, List.take_length.symm⟩

/-- No more than `2 ^ 31 - 1` bytes are ever processed. -/
theorem length_lt_of_narrowed {buffer part : Bytes} (hpart : narrowed buffer = some part) :
    part.length < 2 ^ 31 := by
  obtain ⟨hlt, rfl⟩ := narrowed_eq_some_iff.mp hpart
  rw [List.length_take]
  omega

/-! ## The two functions in terms of the cipher -/

/-- `iv | tag | ciphertext`. -/
def envelope (iv : Iv) (encrypted : Bytes × Tag) : Bytes :=
  iv.toList ++ encrypted.2.toList ++ encrypted.1

@[simp]
theorem length_envelope (iv : Iv) (encrypted : Bytes × Tag) :
    (envelope iv encrypted).length = 28 + encrypted.1.length := by
  rw [envelope, List.length_append, List.length_append, List.Vector.toList_length,
    List.Vector.toList_length]
  rfl

/-- Every blob long enough is cut in one way. -/
theorem exists_envelope {blob : Bytes} (hsize : 28 ≤ blob.length) :
    ∃ iv tag ciphertext, blob = envelope iv (ciphertext, tag) := by
  refine ⟨⟨blob.take 12, by simp [aesIvLength]; omega⟩,
    ⟨(blob.drop 12).take 16, by simp [aesTagLength]; omega⟩, blob.drop 28, ?_⟩
  change blob = blob.take 12 ++ (blob.drop 12).take 16 ++ blob.drop 28
  have hrest : blob.drop 28 = (blob.drop 12).drop 16 := by rw [List.drop_drop]
  rw [List.append_assoc, hrest, List.take_append_drop, List.take_append_drop]

theorem envelope_inj {firstIv secondIv : Iv} {first second : Bytes × Tag} :
    envelope firstIv first = envelope secondIv second ↔
      firstIv = secondIv ∧ first = second := by
  constructor
  · intro hequal
    rw [envelope, envelope, List.append_assoc, List.append_assoc] at hequal
    obtain ⟨hiv, hrest⟩ := List.append_inj hequal (by simp)
    obtain ⟨htag, hciphertext⟩ := List.append_inj hrest (by simp)
    exact ⟨List.Vector.eq _ _ hiv, Prod.ext hciphertext (List.Vector.eq _ _ htag)⟩
  · rintro ⟨rfl, rfl⟩
    rfl

theorem blobIv_envelope (iv : Iv) (encrypted : Bytes × Tag)
    (hsize : ¬ (envelope iv encrypted).length < aesIvLength + aesTagLength) :
    blobIv (envelope iv encrypted) hsize = iv := by
  apply List.Vector.eq
  change (envelope iv encrypted).take aesIvLength = iv.toList
  rw [envelope, List.append_assoc]
  exact List.take_left' iv.toList_length

theorem blobTag_envelope (iv : Iv) (encrypted : Bytes × Tag)
    (hsize : ¬ (envelope iv encrypted).length < aesIvLength + aesTagLength) :
    blobTag (envelope iv encrypted) hsize = encrypted.2 := by
  apply List.Vector.eq
  change ((envelope iv encrypted).drop aesIvLength).take aesTagLength = encrypted.2.toList
  rw [envelope, List.append_assoc, List.drop_left' iv.toList_length]
  exact List.take_left' encrypted.2.toList_length

theorem drop_envelope (iv : Iv) (encrypted : Bytes × Tag) :
    (envelope iv encrypted).drop (aesIvLength + aesTagLength) = encrypted.1 := by
  rw [envelope]
  exact List.drop_left' (by simp)

theorem take_envelope (iv : Iv) (encrypted : Bytes × Tag) (size : ℕ) :
    (envelope iv encrypted).take (28 + size) =
      envelope iv (encrypted.1.take size, encrypted.2) := by
  have hhead : (iv.toList ++ encrypted.2.toList).length = 28 := by
    rw [List.length_append, List.Vector.toList_length, List.Vector.toList_length]
    rfl
  rw [envelope, envelope, ← hhead, List.take_length_add_append]

/-- The system grants everything a call asks for, and `iv` as random bytes. -/
structure OpenSSL.Ready (ssl : OpenSSL) (iv : Iv) : Prop where
  randBytes_eq : ssl.randBytes = some iv
  newContext_eq : ssl.newContext = true
  initContext_eq : ssl.initContext = true

section Spec

variable {ssl : OpenSSL} {iv : Iv} {password : Bytes}

/-- A non-negative length processes that much of the buffer. -/
theorem encryptUpdate_of_not_neg {ctx : CipherCtx} (hencrypting : ctx.encrypting = true)
    (hfresh : ctx.ciphertext = []) (data : Bytes) {inl : ℤ} (hinl : ¬ inl < 0) :
    ssl.encryptUpdate ctx data inl =
      some (ssl.gcm.crypt ctx.key ctx.iv 0 (data.take inl.toNat),
        { ctx with ciphertext := ssl.gcm.crypt ctx.key ctx.iv 0 (data.take inl.toNat) }) := by
  rw [OpenSSL.encryptUpdate, if_neg hinl, if_pos hencrypting, hfresh]
  simp only [List.length_nil, List.nil_append]

theorem decryptUpdate_of_not_neg {ctx : CipherCtx} (hdecrypting : ctx.encrypting = false)
    (hfresh : ctx.ciphertext = []) (ciphertext : Bytes) {inl : ℤ} (hinl : ¬ inl < 0) :
    ssl.decryptUpdate ctx ciphertext inl =
      some (ssl.gcm.crypt ctx.key ctx.iv 0 (ciphertext.take inl.toNat),
        { ctx with ciphertext := ciphertext.take inl.toNat }) := by
  rw [OpenSSL.decryptUpdate, if_neg hinl, if_neg (by simp [hdecrypting]), hfresh]
  simp only [List.length_nil, List.nil_append]

/-- The first update of an encrypting context, on a buffer of the size it is
passed. -/
theorem encryptUpdate_eq {ctx : CipherCtx} (hencrypting : ctx.encrypting = true)
    (hfresh : ctx.ciphertext = []) (data : Bytes) :
    ssl.encryptUpdate ctx data (toInt32 data.length) =
      (narrowed data).map fun part =>
        (ssl.gcm.crypt ctx.key ctx.iv 0 part,
          { ctx with ciphertext := ssl.gcm.crypt ctx.key ctx.iv 0 part }) := by
  by_cases hneg : toInt32 data.length < 0
  · rw [OpenSSL.encryptUpdate, if_pos hneg, narrowed_of_neg hneg, Option.map_none]
  · rw [encryptUpdate_of_not_neg hencrypting hfresh data hneg, narrowed_of_not_neg hneg,
      Option.map_some]

/-- The first update of a decrypting context, likewise. -/
theorem decryptUpdate_eq {ctx : CipherCtx} (hdecrypting : ctx.encrypting = false)
    (hfresh : ctx.ciphertext = []) (ciphertext : Bytes) :
    ssl.decryptUpdate ctx ciphertext (toInt32 ciphertext.length) =
      (narrowed ciphertext).map fun part =>
        (ssl.gcm.crypt ctx.key ctx.iv 0 part, { ctx with ciphertext := part }) := by
  by_cases hneg : toInt32 ciphertext.length < 0
  · rw [OpenSSL.decryptUpdate, if_pos hneg, narrowed_of_neg hneg, Option.map_none]
  · rw [decryptUpdate_of_not_neg hdecrypting hfresh ciphertext hneg,
      narrowed_of_not_neg hneg, Option.map_some]

/-- The encryptor's calls on a fresh context. -/
theorem encryptStream_eq {ctx : CipherCtx} (hencrypting : ctx.encrypting = true)
    (hfresh : ctx.ciphertext = []) (data : Bytes) :
    encryptStream ssl ctx data =
      match narrowed data with
      | none => throwing (.dhtError (ascii "Encryption failed"))
      | some part => .ok (ssl.gcm.encrypt ctx.key ctx.iv part) := by
  rw [encryptStream, encryptUpdate_eq hencrypting hfresh]
  cases narrowed data with
  | none => rfl
  | some part =>
      simp only [Option.map_some, orThrow_some, ok_bind, OpenSSL.encryptFinal, hencrypting,
        if_true, CipherCtx.getTag, writeAt_nil, List.length_nil, Nat.add_zero,
        resize_writeAt_zero]
      rfl

/-- The decryptor's calls on a fresh context. -/
theorem decryptStream_eq {ctx : CipherCtx} (hdecrypting : ctx.encrypting = false)
    (hfresh : ctx.ciphertext = []) (ciphertext : Bytes) (tag : Tag) :
    decryptStream ssl ctx ciphertext tag =
      match narrowed ciphertext with
      | none => throwing .decryptionFailedError
      | some part =>
          orThrow .invalidPasswordError (ssl.gcm.decrypt ctx.key ctx.iv part tag) := by
  rw [decryptStream, decryptUpdate_eq hdecrypting hfresh]
  cases narrowed ciphertext with
  | none => rfl
  | some part =>
      simp only [Option.map_some, orThrow_some, ok_bind, CipherCtx.setTag,
        OpenSSL.decryptFinal, hdecrypting, Bool.false_eq_true, if_false, Option.some.injEq,
        StreamCipher.decrypt]
      by_cases htag : ssl.gcm.authTag ctx.key ctx.iv part = tag
      · rw [if_pos htag.symm, if_pos htag, orThrow_some, orThrow_some, ok_bind, writeAt_nil,
          List.length_nil, Nat.add_zero, resize_writeAt_zero]
        rfl
      · rw [if_neg (Ne.symm htag), if_neg htag, orThrow_none, throwing_bind]

/-- The encryptor envelopes the part of its data that the cipher sees. -/
theorem encryptData_eq (hready : ssl.Ready iv)
    (hlong : minPasswordLength ≤ password.length) (data : Bytes) :
    encryptData ssl data password =
      match narrowed data with
      | none => throwing (.dhtError (ascii "Encryption failed"))
      | some part =>
          .ok (envelope iv (ssl.gcm.encrypt (passwordKey password) iv part)) := by
  have hvalid : validatePassword password = .ok () := by
    rw [validatePassword, if_neg (Nat.not_lt.mpr hlong)]
  rw [encryptData, hvalid, hready.randBytes_eq, hready.newContext_eq,
    hready.initContext_eq, ok_bind, orThrow_some, ok_bind, require_true, ok_bind,
    require_true, ok_bind,
    encryptStream_eq (OpenSSL.cipherInit_encrypting true (passwordKey password) iv)
      (OpenSSL.cipherInit_ciphertext true (passwordKey password) iv)]
  cases narrowed data with
  | none => rfl
  | some part => rfl

/-- The decryptor opens what the cipher sees of the ciphertext. -/
theorem decryptData_envelope (hready : ssl.Ready iv)
    (hlong : minPasswordLength ≤ password.length) (nonce : Iv) (tag : Tag)
    (ciphertext : Bytes) :
    decryptData ssl (envelope nonce (ciphertext, tag)) password =
      match narrowed ciphertext with
      | none => throwing .decryptionFailedError
      | some part =>
          orThrow .invalidPasswordError
            (ssl.gcm.decrypt (passwordKey password) nonce part tag) := by
  have hsize : ¬ (envelope nonce (ciphertext, tag)).length < aesIvLength + aesTagLength := by
    rw [length_envelope]
    exact Nat.not_lt.mpr (Nat.le_add_right 28 _)
  rw [decryptData, if_neg (Nat.not_lt.mpr hlong), dif_neg hsize, hready.newContext_eq,
    hready.initContext_eq, blobIv_envelope, blobTag_envelope, drop_envelope]
  dsimp only
  rw [require_true, require_true, ok_bind, ok_bind,
    decryptStream_eq (OpenSSL.cipherInit_encrypting false (passwordKey password) nonce)
      (OpenSSL.cipherInit_ciphertext false (passwordKey password) nonce),
    OpenSSL.cipherInit_key, OpenSSL.cipherInit_iv]

/-- Blobs shorter than an IV and a tag are refused unread. -/
theorem decryptData_of_length_lt (hlong : minPasswordLength ≤ password.length)
    {blob : Bytes} (hsize : blob.length < aesIvLength + aesTagLength) :
    decryptData ssl blob password = throwing .corruptedFileError := by
  rw [decryptData, if_neg (Nat.not_lt.mpr hlong), dif_pos hsize]

end Spec

end Dht
