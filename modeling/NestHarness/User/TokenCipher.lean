import NestHarness.Lib.Bytes
import NestHarness.User.Crypto

/-!
# The cipher of the refresh tokens

`cipher.ts`: AES-256-GCM under a key of the environment, the three parts of the result in
hexadecimal digits with a colon between them.
-/

namespace NestHarness

abbrev Bytes := List UInt8

/-- What `crypto` does for `aes-256-gcm`, with the message of what it throws. -/
structure AesGcm where
  /-- `createCipheriv` and `createDecipheriv` on a key and an IV. -/
  create : Bytes → Bytes → Except String Unit
  /-- The ciphertext of a plaintext, and its tag. -/
  encrypt : Bytes → Bytes → Bytes → Bytes × Bytes
  setAuthTag : Bytes → Except String Unit
  /-- The plaintext of a ciphertext under a tag. -/
  decrypt : Bytes → Bytes → Bytes → Bytes → Except String Bytes

namespace TokenCipher

/-- `IV_LEN` -/
def ivLen : Nat := 12

/-- What `randomBytes(IV_LEN)` draws. -/
abbrev Iv := { iv : Bytes // iv.length = ivLen }

/-- `length` of a JavaScript string: a character beyond the first plane counts twice. -/
def utf16Length (s : List Char) : Nat := s.length + s.countP fun c => 0x10000 ≤ c.toNat

/-- `Buffer.from(hex, 'hex')`, where `undefined` is `none`. -/
def bufferFrom : Option (List Char) → Except String Bytes
  | some hex => .ok (Hex.decode hex)
  | none => .error ("The first argument must be of type string or an instance of Buffer, " ++
      "ArrayBuffer, or Array or an Array-like Object. Received undefined")

/-- `getKey`, on the environment variable `TOKEN_CIPHER_KEY`. -/
def getKey (env : Option String) : Except String Bytes :=
  let hex := (env.getD "").toList
  if utf16Length hex ≠ 64 then .error "TOKEN_CIPHER_KEY must be 32 bytes (64 hex chars)."
  else bufferFrom hex

variable (A : AesGcm)

def encryptAesGcm (env : Option String) (iv : Iv) (plain : String) : Except String String := do
  let key ← getKey env
  A.create key iv
  let sealed := A.encrypt key iv (Utf8.encode plain.toList)
  return .ofList
    (Hex.encode iv ++ ':' :: (Hex.encode sealed.2 ++ ':' :: Hex.encode sealed.1))

def decryptAesGcm (env : Option String) (encoded : String) : Except String String := do
  let parts := encoded.toList.splitOn ':'
  let key ← getKey env
  let iv ← bufferFrom parts[0]?
  A.create key iv
  let tag ← bufferFrom parts[1]?
  A.setAuthTag tag
  let ct ← bufferFrom parts[2]?
  let pt ← A.decrypt key iv tag ct
  return .ofList (Utf8.decode pt)

end TokenCipher

open TokenCipher

/-- What is assumed of AES-256-GCM: keys of 32 bytes, IVs of 12 and tags of 16 are taken, and
decryption inverts encryption under the same key, IV and tag. -/
structure AesGcm.Lawful (A : AesGcm) : Prop where
  create : ∀ key iv, key.length = 32 → iv.length = ivLen → A.create key iv = .ok ()
  length_tag : ∀ key iv plain, (A.encrypt key iv plain).2.length = 16
  setAuthTag : ∀ tag, tag.length = 16 → A.setAuthTag tag = .ok ()
  decrypt_encrypt : ∀ key iv plain, key.length = 32 → iv.length = ivLen →
    A.decrypt key iv (A.encrypt key iv plain).2 (A.encrypt key iv plain).1 = .ok plain

namespace TokenCipher

/-- A key of 64 hexadecimal digits. -/
structure HexKey (hex : String) : Prop where
  length : hex.toList.length = 64
  digits : ∀ c ∈ hex.toList, (Hex.value c).isSome = true

/-! ## The parts -/

theorem colon_notMem_encode (bs : Bytes) : ':' ∉ Hex.encode bs := by
  intro h
  cases Hex.value_of_mem_encode h

/-- The colons are between the parts only. -/
theorem splitOn_parts (iv tag ct : Bytes) :
    (Hex.encode iv ++ ':' :: (Hex.encode tag ++ ':' :: Hex.encode ct)).splitOn ':' =
      [Hex.encode iv, Hex.encode tag, Hex.encode ct] := by
  rw [List.splitOn_append_cons_self_of_not_mem (colon_notMem_encode iv),
    List.splitOn_append_cons_self_of_not_mem (colon_notMem_encode tag),
    List.splitOn_eq_singleton (colon_notMem_encode ct)]

theorem bufferFrom_encode (bs : Bytes) : bufferFrom (some (Hex.encode bs)) = .ok bs := by
  rw [bufferFrom, Hex.decode_encode]

theorem lt_of_value {c : Char} (h : (Hex.value c).isSome = true) : c.toNat < 0x10000 := by
  unfold Hex.value at h
  split at h
  · next hc => exact Nat.lt_of_le_of_lt hc.2 (by decide)
  split at h
  · next hc => exact Nat.lt_of_le_of_lt hc.2 (by decide)
  split at h
  · next hc => exact Nat.lt_of_le_of_lt hc.2 (by decide)
  · cases h

/-- A key of digits in either case has 32 bytes. -/
theorem getKey_hexKey {hex : String} (h : HexKey hex) :
    ∃ key, getKey (some hex) = .ok key ∧ key.length = 32 := by
  have hlength : utf16Length hex.toList = 64 := by
    rw [utf16Length, h.length, List.countP_eq_zero.mpr]
    intro c hc
    have := lt_of_value (h.digits c hc)
    simpa using this
  refine ⟨Hex.decode hex.toList, ?_, Hex.length_decode h.length h.digits⟩
  exact if_neg (not_not.mpr hlength)

/-! ## The round trip -/

variable {A : AesGcm}

/-- What `encryptAesGcm` returns under a key of digits. -/
theorem encryptAesGcm_eq (hA : A.Lawful) {hex : String} {key : Bytes} (iv : Iv) (plain : String)
    (hkey : getKey (some hex) = .ok key) (hlength : key.length = 32) :
    encryptAesGcm A (some hex) iv plain = .ok (.ofList
      (Hex.encode iv ++ ':' :: (Hex.encode (A.encrypt key iv (Utf8.encode plain.toList)).2 ++
        ':' :: Hex.encode (A.encrypt key iv (Utf8.encode plain.toList)).1))) := by
  rw [encryptAesGcm, hkey]
  dsimp only [Bind.bind, Except.bind]
  rw [hA.create key iv hlength iv.2]
  rfl

/-- What `decryptAesGcm` makes of three parts in hexadecimal digits. -/
theorem decryptAesGcm_parts (hA : A.Lawful) {hex : String} {key iv tag : Bytes} (ct : Bytes)
    (hkey : getKey (some hex) = .ok key) (hlength : key.length = 32) (hiv : iv.length = ivLen)
    (htag : tag.length = 16) :
    decryptAesGcm A (some hex) (.ofList
      (Hex.encode iv ++ ':' :: (Hex.encode tag ++ ':' :: Hex.encode ct))) =
      (A.decrypt key iv tag ct).map fun pt => .ofList (Utf8.decode pt) := by
  rw [decryptAesGcm, String.toList_ofList, splitOn_parts, hkey]
  dsimp only [Bind.bind, Except.bind, List.getElem?_cons_zero, List.getElem?_cons_succ]
  rw [bufferFrom_encode, bufferFrom_encode, bufferFrom_encode]
  dsimp only
  rw [hA.create key iv hlength hiv]
  dsimp only
  rw [hA.setAuthTag tag htag]
  cases A.decrypt key iv tag ct <;> rfl

theorem bind_decryptAesGcm (hA : A.Lawful) {hex : String} (hhex : HexKey hex) (iv : Iv)
    (plain : String) :
    (encryptAesGcm A (some hex) iv plain).bind (decryptAesGcm A (some hex)) = .ok plain := by
  obtain ⟨key, hkey, hlength⟩ := getKey_hexKey hhex
  rw [encryptAesGcm_eq hA iv plain hkey hlength, Except.bind]
  rw [decryptAesGcm_parts hA _ hkey hlength iv.2 (hA.length_tag ..),
    hA.decrypt_encrypt key iv _ hlength iv.2]
  simp only [Except.map, Utf8.decode_encode, String.ofList_toList]

/-- **Round trip**: under a key of 64 hexadecimal digits a text is decrypted to itself, whatever IV
has been drawn. -/
theorem decryptAesGcm_encryptAesGcm (hA : A.Lawful) {hex : String} (hhex : HexKey hex) (iv : Iv)
    (plain : String) : ∃ encoded, encryptAesGcm A (some hex) iv plain = .ok encoded ∧
      decryptAesGcm A (some hex) encoded = .ok plain := by
  obtain ⟨key, hkey, hlength⟩ := getKey_hexKey hhex
  have hencrypt := encryptAesGcm_eq hA iv plain hkey hlength
  have hbind := bind_decryptAesGcm hA hhex iv plain
  rw [hencrypt] at hbind
  exact ⟨_, hencrypt, hbind⟩

/-! ## A text under a key -/

def sampleHex : String := "00112233445566778899aabbccddeeff00112233445566778899AABBCCDDEEFF"

def sampleIv : Iv := ⟨Hex.decode "0102030405060708090a0b0c".toList, by decide +kernel⟩

def samplePlain : String := "토큰 😀"

def sampleCiphertext : Bytes := Hex.decode "97f4a54d69a785b175603b".toList

def sampleTag : Bytes := Hex.decode "88d423792534d9382363e1035a64b633".toList

/-- It encrypts the sample, and only that one. -/
def IsSample (key iv plain : Bytes) : Prop :=
  key = Hex.decode sampleHex.toList ∧ iv = sampleIv.1 ∧ plain = Utf8.encode samplePlain.toList

instance (key iv plain : Bytes) : Decidable (IsSample key iv plain) :=
  inferInstanceAs (Decidable (_ ∧ _ ∧ _))

/-- AES-256-GCM on the sample; any other plaintext is its own ciphertext, under the tag of zeros. -/
def sampleAes : AesGcm where
  create key iv :=
    if key.length ≠ 32 then .error "Invalid key length"
    else if iv = [] then .error "Invalid initialization vector"
    else .ok ()
  encrypt key iv plain :=
    if IsSample key iv plain then (sampleCiphertext, sampleTag) else (plain, List.replicate 16 0)
  setAuthTag tag :=
    if tag.length ∈ [4, 8, 12, 13, 14, 15, 16] then .ok ()
    else .error ("Invalid authentication tag length: " ++ toString tag.length)
  decrypt key iv tag ct :=
    if tag = List.replicate 16 0 then .ok ct
    else if IsSample key iv (Utf8.encode samplePlain.toList) ∧ tag = sampleTag ∧
        ct = sampleCiphertext then
      .ok (Utf8.encode samplePlain.toList)
    else .error "Unsupported state or unable to authenticate data"

theorem sampleTag_length : sampleTag.length = 16 := by decide +kernel

theorem sampleTag_ne : sampleTag ≠ List.replicate 16 0 := by decide +kernel

theorem sampleAes_lawful : sampleAes.Lawful where
  create key iv hkey hiv := by
    have hne : iv ≠ [] := fun hnil => by cases hnil ▸ hiv
    simp [sampleAes, hkey, hne]
  length_tag key iv plain := by
    simp only [sampleAes]
    split
    · exact sampleTag_length
    · exact List.length_replicate
  setAuthTag tag htag := by simp [sampleAes, htag]
  decrypt_encrypt key iv plain _ _ := by
    simp only [sampleAes]
    by_cases h : IsSample key iv plain
    · have hplain : plain = Utf8.encode samplePlain.toList := h.2.2
      rw [if_pos h, if_neg sampleTag_ne, if_pos ⟨hplain ▸ h, rfl, rfl⟩, hplain]
    · rw [if_neg h, if_pos rfl]

theorem sampleHex_hexKey : HexKey sampleHex where
  length := by decide +kernel
  digits := by
    have hall : sampleHex.toList.all (fun c => (Hex.value c).isSome) = true := by decide +kernel
    exact List.all_eq_true.mp hall

theorem decryptAesGcm_sample : ∃ encoded,
    encryptAesGcm sampleAes (some sampleHex) sampleIv samplePlain = .ok encoded ∧
      decryptAesGcm sampleAes (some sampleHex) encoded = .ok samplePlain :=
  decryptAesGcm_encryptAesGcm sampleAes_lawful sampleHex_hexKey sampleIv samplePlain

example : (encryptAesGcm sampleAes (some sampleHex) sampleIv samplePlain).toOption = some
    "0102030405060708090a0b0c:88d423792534d9382363e1035a64b633:97f4a54d69a785b175603b" := by
  decide +kernel

end TokenCipher

/-! ## Under the tokens of the service -/

/-- The primitives with the cipher of `cipher.ts`, for tokens that are spelled as texts. -/
def Crypto.withAesGcm (P : Crypto) (spell : P.Token → String) (read : String → P.Token) (A : AesGcm)
    (env : Option String) (randomBytes : String → Iv) : Crypto :=
  { P with
    Cipher := Except String String
    encryptAesGcm iv token := TokenCipher.encryptAesGcm A env (randomBytes iv) (spell token)
    decryptAesGcm encoded := (encoded.bind (TokenCipher.decryptAesGcm A env)).map read }

/-- They meet the law that the runs of the service rely on. -/
theorem Crypto.Lawful.withAesGcm {P : Crypto} (hP : P.Lawful) {spell : P.Token → String}
    {read : String → P.Token} (hread : ∀ token, read (spell token) = token) {A : AesGcm}
    (hA : A.Lawful) {hex : String} (hhex : HexKey hex) (randomBytes : String → Iv) :
    (P.withAesGcm spell read A (some hex) randomBytes).Lawful where
  decode_encode := hP.decode_encode
  signatureOk_encode := hP.signatureOk_encode
  sha256_injective := hP.sha256_injective
  decrypt_encrypt iv token := by
    have hbind := bind_decryptAesGcm hA hhex (randomBytes iv) (spell token)
    exact (congrArg (Except.map read) hbind).trans (congrArg Except.ok (hread token))

end NestHarness
