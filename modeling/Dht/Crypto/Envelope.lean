/-
# What the envelope guarantees

Three questions about `encryptData` and `decryptData`, each answered for every
input: when does decrypting return what was encrypted, which passwords open a
blob, and which blobs are accepted at all. The answers are exact. A size is
harmless below `2 ^ 31`, refused when its low 32 bits have the sign bit set, and
silently cut otherwise; of a password only the first 32 bytes count.
-/

import Dht.Crypto.AesGcm

namespace Dht

variable {ssl : OpenSSL} {iv : Iv} {password : Bytes}

/-! ## Round trip -/

/-- Whenever the encryptor returns a blob, the decryptor returns the data. -/
def RoundTripsData (ssl : OpenSSL) (data password : Bytes) : Prop :=
  ∀ blob, encryptData ssl data password = .ok blob →
    decryptData ssl blob password = .ok data

/-- An envelope of data that is not too long is opened whole, under any password. -/
theorem decryptData_encrypt (hready : ssl.Ready iv)
    (hlong : minPasswordLength ≤ password.length) {part : Bytes}
    (hsmall : part.length < 2 ^ 31) (key : AesKey) (nonce : Iv) :
    decryptData ssl (envelope nonce (ssl.gcm.encrypt key nonce part)) password =
      orThrow .invalidPasswordError (ssl.gcm.decrypt (passwordKey password) nonce
        (ssl.gcm.encrypt key nonce part).1 (ssl.gcm.encrypt key nonce part).2) := by
  have hciphertext : (ssl.gcm.encrypt key nonce part).1.length < 2 ^ 31 := by
    rw [StreamCipher.length_encrypt_fst]
    exact hsmall
  rw [decryptData_envelope hready hlong, narrowed_of_lt hciphertext]

/-- A blob decrypts to the part of the data the cipher saw. -/
theorem decryptData_encryptData (hready : ssl.Ready iv)
    (hlong : minPasswordLength ≤ password.length) {data part : Bytes}
    (hpart : narrowed data = some part) :
    encryptData ssl data password =
        .ok (envelope iv (ssl.gcm.encrypt (passwordKey password) iv part)) ∧
      decryptData ssl (envelope iv (ssl.gcm.encrypt (passwordKey password) iv part))
        password = .ok part := by
  constructor
  · rw [encryptData_eq hready hlong, hpart]
  · rw [decryptData_encrypt hready hlong (length_lt_of_narrowed hpart),
      StreamCipher.decrypt_encrypt, orThrow_some]

/-- The round trip loses nothing exactly when the size does not wrap around to a
non-negative `int`. -/
theorem roundTripsData_iff (hready : ssl.Ready iv)
    (hlong : minPasswordLength ≤ password.length) (data : Bytes) :
    RoundTripsData ssl data password ↔
      data.length < 2 ^ 32 ∨ 2 ^ 31 ≤ data.length % 2 ^ 32 := by
  cases hpart : narrowed data with
  | none =>
      have hneg := narrowed_eq_none_iff.mp hpart
      refine ⟨fun _ => .inr hneg, fun _ blob hblob => ?_⟩
      rw [encryptData_eq hready hlong, hpart] at hblob
      cases hblob
  | some part =>
      obtain ⟨hencrypt, hdecrypt⟩ := decryptData_encryptData hready hlong hpart
      obtain ⟨hlt, hfront⟩ := narrowed_eq_some_iff.mp hpart
      constructor
      · intro htrip
        have hequal : part = data :=
          Except.ok.inj (hdecrypt.symm.trans (htrip _ hencrypt))
        have hlength := congrArg List.length hfront
        rw [hequal, List.length_take] at hlength
        omega
      · intro hsize blob hblob
        have hwhole : part = data := by
          rw [hfront]
          exact List.take_of_length_le (by omega)
        cases hencrypt.symm.trans hblob
        rw [hdecrypt, hwhole]

/-! ### Recorded values

AES-256-GCM under two keys and the zero IV, as far as the instances below look: the
tags of the empty text and of `R`, and the keystream of the first byte. -/

def firstPassword : Bytes := List.replicate 32 107
def secondPassword : Bytes := List.replicate 32 113
def zeroIv : Iv := ⟨List.replicate 12 0, rfl⟩

/-- The first byte of the keystream of a key. -/
def recordedKeystream (key : AesKey) : Bytes :=
  if key = passwordKey firstPassword then [224]
  else if key = passwordKey secondPassword then [54]
  else []

def recordedTag (key : AesKey) (ciphertext : Bytes) : Tag :=
  if key = passwordKey firstPassword then
    if ciphertext = [] then
      ⟨[125, 202, 16, 32, 254, 142, 24, 131, 218, 51, 56, 171, 15, 63, 46, 110], rfl⟩
    else ⟨[190, 21, 42, 215, 185, 75, 97, 114, 188, 22, 118, 151, 5, 208, 81, 145], rfl⟩
  else if ciphertext = [] then
    ⟨[132, 83, 133, 165, 50, 135, 123, 234, 40, 120, 167, 89, 211, 121, 0, 248], rfl⟩
  else ⟨[249, 84, 207, 176, 23, 76, 12, 43, 147, 163, 126, 13, 68, 162, 143, 182], rfl⟩

def recordedGcm : StreamCipher AesKey Iv UInt8 Tag where
  mask key _ position symbol := symbol ^^^ (recordedKeystream key).getD position 0
  mask_mask key _ position symbol := by
    rw [UInt8.xor_assoc, UInt8.xor_self, UInt8.xor_zero]
  authTag key _ ciphertext := recordedTag key ciphertext

def recordedSSL : OpenSSL where
  gcm := recordedGcm
  randBytes := some zeroIv
  newContext := true
  initContext := true

theorem recordedSSL_ready : recordedSSL.Ready zeroIv := ⟨rfl, rfl, rfl⟩

theorem firstPassword_long : minPasswordLength ≤ firstPassword.length := by decide

theorem secondPassword_long : minPasswordLength ≤ secondPassword.length := by decide

/-- A buffer of `2 ^ 32` bytes is passed on as one of no bytes. -/
theorem narrowed_replicate (byte : UInt8) :
    narrowed (List.replicate (2 ^ 32) byte) = some [] := by
  rw [narrowed_eq_some_iff, List.length_replicate]
  exact ⟨by decide, List.take_zero.symm⟩

theorem roundTripsData_iff_recorded :
    RoundTripsData recordedSSL (ascii "R") firstPassword ↔
      (ascii "R").length < 2 ^ 32 ∨ 2 ^ 31 ≤ (ascii "R").length % 2 ^ 32 :=
  roundTripsData_iff recordedSSL_ready firstPassword_long _

/-- `2 ^ 32` zero bytes come back as nothing. -/
theorem not_roundTripsData_recorded :
    ¬ RoundTripsData recordedSSL (List.replicate (2 ^ 32) 0) firstPassword := by
  intro htrip
  obtain ⟨hencrypt, hdecrypt⟩ :=
    decryptData_encryptData recordedSSL_ready firstPassword_long (narrowed_replicate 0)
  have hequal := Except.ok.inj (hdecrypt.symm.trans (htrip _ hencrypt))
  have hempty := congrArg List.length hequal
  rw [List.length_replicate] at hempty
  exact absurd hempty (by decide)

/-! ## Wrong passwords -/

/-- What GCM promises for two keys, an IV and a ciphertext: the tag made under one
key does not verify under the other. -/
def KeysSeparated (ssl : OpenSSL) (iv : Iv) (ciphertext : Bytes)
    (first second : AesKey) : Prop :=
  first ≠ second → ssl.gcm.authTag first iv ciphertext ≠ ssl.gcm.authTag second iv ciphertext

/-- A password is rejected exactly when it differs from the right one in the first
32 bytes; one that does not is as good as the right one. -/
theorem decryptData_otherPassword (hready : ssl.Ready iv) {other data blob : Bytes}
    (hlong : minPasswordLength ≤ password.length)
    (hother : minPasswordLength ≤ other.length)
    (hblob : encryptData ssl data password = .ok blob)
    (hkeys : KeysSeparated ssl iv (blob.drop (aesIvLength + aesTagLength))
      (passwordKey password) (passwordKey other)) :
    (decryptData ssl blob other = throwing .invalidPasswordError ↔
        password.take aesKeyLength ≠ other.take aesKeyLength) ∧
      (password.take aesKeyLength = other.take aesKeyLength →
        decryptData ssl blob other = decryptData ssl blob password) ∧
      (passwordKey password = passwordKey other ↔
        password.take aesKeyLength = other.take aesKeyLength) := by
  have hkey := passwordKey_eq_iff hlong hother
  cases hpart : narrowed data with
  | none =>
      rw [encryptData_eq hready hlong, hpart] at hblob
      cases hblob
  | some part =>
      obtain ⟨hencrypt, hdecrypt⟩ := decryptData_encryptData hready hlong hpart
      cases hencrypt.symm.trans hblob
      rw [drop_envelope] at hkeys
      have hopened := decryptData_encrypt hready hother (length_lt_of_narrowed hpart)
        (passwordKey password) iv
      have hsame : password.take aesKeyLength = other.take aesKeyLength →
          decryptData ssl (envelope iv (ssl.gcm.encrypt (passwordKey password) iv part))
            other = .ok part := by
        intro hequal
        rw [hopened, ← hkey.mpr hequal, StreamCipher.decrypt_encrypt, orThrow_some]
      refine ⟨⟨fun hthrown hequal => ?_, fun hne => ?_⟩, fun hequal => ?_, hkey⟩
      · rw [hsame hequal] at hthrown
        cases hthrown
      · have htag := hkeys fun hequal => hne (hkey.mp hequal)
        rw [hopened, StreamCipher.decrypt_encrypt_eq_none _ htag, orThrow_none]
      · rw [hsame hequal, hdecrypt]

/-- The blob of the text `R` under the first recorded key. -/
def redBlob : Bytes :=
  envelope zeroIv (recordedGcm.encrypt (passwordKey firstPassword) zeroIv (ascii "R"))

theorem encryptData_recorded :
    encryptData recordedSSL (ascii "R") firstPassword = .ok redBlob := by
  decide

theorem decryptData_otherPassword_recorded :
    decryptData recordedSSL redBlob secondPassword = throwing .invalidPasswordError ↔
      firstPassword.take aesKeyLength ≠ secondPassword.take aesKeyLength :=
  (decryptData_otherPassword recordedSSL_ready firstPassword_long secondPassword_long
    encryptData_recorded (by intro _; decide)).1

/-- Two passwords that differ behind the 32nd byte have one key, and either opens
what was encrypted under the other. -/
theorem decryptData_longPassword_recorded :
    firstPassword ++ ascii "a" ≠ firstPassword ++ ascii "b" ∧
      passwordKey (firstPassword ++ ascii "a") = passwordKey (firstPassword ++ ascii "b") ∧
      encryptData recordedSSL (ascii "R") (firstPassword ++ ascii "a") = .ok redBlob ∧
      decryptData recordedSSL redBlob (firstPassword ++ ascii "b") = .ok (ascii "R") := by
  decide

/-! ## Exactness -/

/-- The same environment when `RAND_bytes` returns `iv`. -/
def OpenSSL.withIv (ssl : OpenSSL) (iv : Iv) : OpenSSL :=
  { ssl with randBytes := some iv }

/-- `blob` is the envelope of exactly `data`, for some IV. -/
def IsEnvelopeOf (ssl : OpenSSL) (password blob data : Bytes) : Prop :=
  ∃ iv, blob = envelope iv (ssl.gcm.encrypt (passwordKey password) iv data)

/-- The decryptor returns `data` just for what the encryptor makes of it. -/
def Exact (ssl : OpenSSL) (password blob data : Bytes) : Prop :=
  decryptData ssl blob password = .ok data ↔
    ∃ iv, encryptData (ssl.withIv iv) data password = .ok blob

/-- Bytes follow an envelope of `data`, so many of them that the size of the
ciphertext comes out as that of the envelope's. -/
def WrappedBlob (ssl : OpenSSL) (password blob data : Bytes) : Prop :=
  2 ^ 32 ≤ blob.length - 28 ∧ (blob.length - 28) % 2 ^ 32 < 2 ^ 31 ∧
    IsEnvelopeOf ssl password (blob.take (28 + (blob.length - 28) % 2 ^ 32)) data

/-- The data is longer than its envelope by bytes the encryptor dropped. -/
def WrappedData (ssl : OpenSSL) (password blob data : Bytes) : Prop :=
  2 ^ 32 ≤ data.length ∧ data.length % 2 ^ 32 < 2 ^ 31 ∧
    IsEnvelopeOf ssl password blob (data.take (data.length % 2 ^ 32))

theorem IsEnvelopeOf.length_eq {blob data : Bytes}
    (henvelope : IsEnvelopeOf ssl password blob data) :
    blob.length = 28 + data.length := by
  obtain ⟨iv, rfl⟩ := henvelope
  rw [length_envelope, StreamCipher.length_encrypt_fst]

theorem withIv_ready (hready : ssl.Ready iv) (other : Iv) :
    (ssl.withIv other).Ready other :=
  ⟨rfl, hready.newContext_eq, hready.initContext_eq⟩

/-- The encryptor's outputs are the envelopes of what the cipher sees. -/
theorem exists_encryptData_iff (hready : ssl.Ready iv)
    (hlong : minPasswordLength ≤ password.length) {blob data : Bytes} :
    (∃ iv, encryptData (ssl.withIv iv) data password = .ok blob) ↔
      ∃ part, narrowed data = some part ∧ IsEnvelopeOf ssl password blob part := by
  have hencrypt (other : Iv) := encryptData_eq (withIv_ready hready other) hlong data
  cases hpart : narrowed data with
  | none =>
      simp only [hpart] at hencrypt
      constructor
      · rintro ⟨other, hblob⟩
        rw [hencrypt other] at hblob
        cases hblob
      · rintro ⟨_, hsome, _⟩
        cases hsome
  | some part =>
      simp only [hpart] at hencrypt
      constructor
      · rintro ⟨other, hblob⟩
        rw [hencrypt other] at hblob
        exact ⟨part, rfl, other, (Except.ok.inj hblob).symm⟩
      · rintro ⟨_, hsome, other, rfl⟩
        cases hsome
        exact ⟨other, hencrypt other⟩

/-- The decryptor accepts the blobs whose front, of the size the cipher sees, is an
envelope. -/
theorem decryptData_eq_ok_iff (hready : ssl.Ready iv)
    (hlong : minPasswordLength ≤ password.length) {blob data : Bytes} :
    decryptData ssl blob password = .ok data ↔
      28 ≤ blob.length ∧ (blob.length - 28) % 2 ^ 32 < 2 ^ 31 ∧
        IsEnvelopeOf ssl password (blob.take (28 + (blob.length - 28) % 2 ^ 32)) data := by
  by_cases hsize : blob.length < 28
  · rw [decryptData_of_length_lt hlong hsize]
    constructor
    · intro hok
      cases hok
    · intro haccepted
      exact absurd haccepted.1 (Nat.not_le.mpr hsize)
  · obtain ⟨nonce, tag, ciphertext, rfl⟩ := exists_envelope (Nat.not_lt.mp hsize)
    rw [decryptData_envelope hready hlong, length_envelope, Nat.add_sub_cancel_left,
      take_envelope]
    cases hpart : narrowed ciphertext with
    | none =>
        have hneg := narrowed_eq_none_iff.mp hpart
        constructor
        · intro hok
          cases hok
        · intro haccepted
          exact absurd haccepted.2.1 (Nat.not_lt.mpr hneg)
    | some part =>
        obtain ⟨hlt, rfl⟩ := narrowed_eq_some_iff.mp hpart
        dsimp only
        rw [orThrow_eq_ok_iff, StreamCipher.decrypt_eq_some_iff]
        constructor
        · intro hencrypt
          exact ⟨Nat.le_add_right 28 _, hlt, nonce, by rw [hencrypt]⟩
        · rintro ⟨_, _, other, hequal⟩
          obtain ⟨rfl, hencrypt⟩ := envelope_inj.mp hequal
          exact hencrypt.symm

/-- A blob and a text without a wrapped size that belong together. -/
def PlainEnvelope (ssl : OpenSSL) (password blob data : Bytes) : Prop :=
  data.length < 2 ^ 31 ∧ IsEnvelopeOf ssl password blob data

/-- Besides plain envelopes the decryptor accepts those with bytes appended. -/
theorem decryptData_eq_ok_iff_or (hready : ssl.Ready iv)
    (hlong : minPasswordLength ≤ password.length) {blob data : Bytes} :
    decryptData ssl blob password = .ok data ↔
      PlainEnvelope ssl password blob data ∨ WrappedBlob ssl password blob data := by
  rw [decryptData_eq_ok_iff hready hlong]
  by_cases hwrapped : 2 ^ 32 ≤ blob.length - 28
  · refine ⟨fun haccepted => .inr ⟨hwrapped, haccepted.2⟩, fun hcases => ?_⟩
    rcases hcases with ⟨hsmall, henvelope⟩ | ⟨_, haccepted⟩
    · have hlength := henvelope.length_eq
      omega
    · exact ⟨by omega, haccepted⟩
  · have hwhole : blob.take (28 + (blob.length - 28) % 2 ^ 32) = blob :=
      List.take_of_length_le (by omega)
    rw [hwhole]
    refine ⟨fun haccepted => ?_, fun hcases => ?_⟩
    · obtain ⟨hsize, hmod, henvelope⟩ := haccepted
      have hlength := henvelope.length_eq
      exact .inl ⟨by omega, henvelope⟩
    · rcases hcases with ⟨hsmall, henvelope⟩ | ⟨hlarge, _⟩
      · have hlength := henvelope.length_eq
        exact ⟨by omega, by omega, henvelope⟩
      · exact absurd hlarge hwrapped

/-- Besides plain envelopes the encryptor makes those of a text it has cut. -/
theorem exists_encryptData_iff_or (hready : ssl.Ready iv)
    (hlong : minPasswordLength ≤ password.length) {blob data : Bytes} :
    (∃ iv, encryptData (ssl.withIv iv) data password = .ok blob) ↔
      PlainEnvelope ssl password blob data ∨ WrappedData ssl password blob data := by
  rw [exists_encryptData_iff hready hlong]
  refine ⟨fun hmade => ?_, fun hcases => ?_⟩
  · obtain ⟨part, hpart, henvelope⟩ := hmade
    obtain ⟨hmod, rfl⟩ := narrowed_eq_some_iff.mp hpart
    by_cases hwrapped : 2 ^ 32 ≤ data.length
    · exact .inr ⟨hwrapped, hmod, henvelope⟩
    · have hwhole : data.take (data.length % 2 ^ 32) = data :=
        List.take_of_length_le (by omega)
      rw [hwhole] at henvelope
      exact .inl ⟨by omega, henvelope⟩
  · rcases hcases with ⟨hsmall, henvelope⟩ | ⟨_, hmod, henvelope⟩
    · exact ⟨data, narrowed_of_lt hsmall, henvelope⟩
    · exact ⟨_, narrowed_eq_some_iff.mpr ⟨hmod, rfl⟩, henvelope⟩

/-- What has a wrapped size is in only one of the three classes. -/
theorem WrappedBlob.exclusive {blob data : Bytes}
    (hblob : WrappedBlob ssl password blob data) :
    ¬ PlainEnvelope ssl password blob data ∧ ¬ WrappedData ssl password blob data := by
  obtain ⟨hlarge, hmod, hfront⟩ := hblob
  refine ⟨fun hplain => ?_, fun hdata => ?_⟩
  · have hlength := hplain.2.length_eq
    have hsmall := hplain.1
    omega
  · have hlength := hdata.2.2.length_eq
    rw [List.length_take] at hlength
    have hmod := hdata.2.1
    omega

/-- The envelope is exact except where a size wraps around, of the blob or of the
data; there it is not. -/
theorem exact_iff (hready : ssl.Ready iv) (hlong : minPasswordLength ≤ password.length)
    (blob data : Bytes) :
    Exact ssl password blob data ↔
      ¬ WrappedBlob ssl password blob data ∧ ¬ WrappedData ssl password blob data := by
  rw [Exact, decryptData_eq_ok_iff_or hready hlong, exists_encryptData_iff_or hready hlong]
  refine ⟨fun hexact => ⟨fun hblob => ?_, fun hdata => ?_⟩, fun hneither => ?_⟩
  · obtain ⟨hplain, hdata⟩ := hblob.exclusive
    exact (hexact.mp (.inr hblob)).elim hplain hdata
  · rcases hexact.mpr (.inr hdata) with hplain | hblob
    · have hsmall := hplain.1
      have hlarge := hdata.1
      omega
    · exact hblob.exclusive.2 hdata
  · rw [or_iff_left hneither.1, or_iff_left hneither.2]

theorem exact_iff_recorded :
    Exact recordedSSL firstPassword redBlob (ascii "R") ↔
      ¬ WrappedBlob recordedSSL firstPassword redBlob (ascii "R") ∧
        ¬ WrappedData recordedSSL firstPassword redBlob (ascii "R") :=
  exact_iff recordedSSL_ready firstPassword_long _ _

/-- An envelope of the empty text with `2 ^ 32` bytes appended is accepted, and the
encryptor never makes it. -/
theorem not_exact_recorded :
    ¬ Exact recordedSSL firstPassword
      (envelope zeroIv (List.replicate (2 ^ 32) 0,
        recordedTag (passwordKey firstPassword) [])) [] := by
  intro hexact
  have haccepted : decryptData recordedSSL (envelope zeroIv (List.replicate (2 ^ 32) 0,
      recordedTag (passwordKey firstPassword) [])) firstPassword = .ok [] := by
    rw [decryptData_envelope recordedSSL_ready firstPassword_long, narrowed_replicate]
    decide
  obtain ⟨other, hblob⟩ := hexact.mp haccepted
  obtain ⟨part, hpart, henvelope⟩ :=
    (exists_encryptData_iff recordedSSL_ready firstPassword_long).mp ⟨other, hblob⟩
  have hsmall := length_lt_of_narrowed hpart
  have hlength := henvelope.length_eq
  simp only [length_envelope, List.length_replicate] at hlength
  omega

end Dht
