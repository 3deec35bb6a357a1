import NestHarness.Lib.Txn

/-!
# Tokens, hashes and ciphers

The primitives the user service is built on: `jsonwebtoken` behind `JwtService`, `sha256Hex`,
`encryptAesGcm`/`decryptAesGcm` and `bcrypt`, and the collation of its tables. Tokens, hashes and
ciphertexts are strings in the source; nothing looks inside them, so they are opaque types here.
`Crypto.Lawful` collects what the proofs assume of the primitives.
-/

namespace NestHarness

/-- The claims of a token as `verify` and `decode` return them. -/
structure JwtPayload where
  type : Option String
  userId : Option String
  sessionId : Option String
  iat : Option Nat
  exp : Option Nat
deriving DecidableEq

structure Crypto where
  Token : Type
  Hash : Type
  Cipher : Type
  [hashEq : DecidableEq Hash]
  /-- `jsonwebtoken.sign` once `iat` and `exp` are set: HS256, a function of the claims. -/
  encodeJwt : JwtPayload → Token
  decodeJwt : Token → Option JwtPayload
  signatureOk : Token → Bool
  sha256Hex : Token → Hash
  /-- `encryptAesGcm` for the drawn IV. -/
  encryptAesGcm : String → Token → Cipher
  decryptAesGcm : Cipher → Except String Token
  /-- `bcrypt.hash` for the drawn salt. -/
  bcryptHash : String → String → String
  bcryptCompare : String → String → Bool
  /-- The environment variable `BCRYPT_CODE`. -/
  bcryptCode : String
  /-- The weight of a text in the collation of the tables: MySQL takes texts of one weight for
  equal. -/
  collate : String → String

attribute [instance] Crypto.hashEq

/-- What is assumed of the primitives: a signed token verifies and decodes to its claims, SHA-256
has no collision, decryption inverts encryption. -/
structure Crypto.Lawful (P : Crypto) : Prop where
  decode_encode : ∀ p, P.decodeJwt (P.encodeJwt p) = some p
  signatureOk_encode : ∀ p, P.signatureOk (P.encodeJwt p) = true
  sha256_injective : Function.Injective P.sha256Hex
  decrypt_encrypt : ∀ iv t, P.decryptAesGcm (P.encryptAesGcm iv t) = .ok t

/-- What `bcrypt` reads of its input: the first 72 bytes of the UTF-8 text. -/
def bcryptInput (s : String) : List UInt8 := s.toUTF8.data.toList.take 72

/-- What is assumed of `bcrypt`: a hash depends on the salt and on what `bcrypt` reads of the input,
and is otherwise injective; `compare` tells whether a text is a hash of such an input. -/
structure Crypto.LawfulBcrypt (P : Crypto) : Prop where
  hash_congr : ∀ salt {s s'}, bcryptInput s = bcryptInput s' →
    P.bcryptHash salt s = P.bcryptHash salt s'
  hash_injective : ∀ {salt salt' s s'}, P.bcryptHash salt s = P.bcryptHash salt' s' →
    salt = salt' ∧ bcryptInput s = bcryptInput s'
  compare_iff : ∀ s h, P.bcryptCompare s h = true ↔
    ∃ salt s', h = P.bcryptHash salt s' ∧ bcryptInput s' = bcryptInput s

inductive JwtError
  | tokenExpired
  | invalid
deriving DecidableEq

variable (P : Crypto)

/-- `JwtService.sign(claims, {expiresIn})` at the instant `now` in milliseconds. -/
def Crypto.sign (claims : JwtPayload) (expiresIn now : Nat) : P.Token :=
  P.encodeJwt { claims with iat := some (now / 1000), exp := some (now / 1000 + expiresIn) }

/-- `JwtService.verify(token)` at the instant `now`. -/
def Crypto.verify (token : P.Token) (now : Nat) : Except JwtError JwtPayload :=
  if P.signatureOk token then
    match P.decodeJwt token with
    | none => .error .invalid
    | some p =>
      match p.exp with
      | none => .ok p
      | some exp => if now / 1000 ≥ exp then .error .tokenExpired else .ok p
  else .error .invalid

/-- The `exp` claim as a date in milliseconds. -/
def Crypto.extractJwtExpiresAt (token : P.Token) : Except String Nat :=
  match P.decodeJwt token with
  | some { exp := some (n + 1), .. } => .ok ((n + 1) * 1000)
  | _ => .error "Invalid JWT: exp claim missing."

def Crypto.getBcrypt (salt str : String) : String := P.bcryptHash salt (P.bcryptCode ++ str)

def Crypto.matchBcrypt (strA strB : String) : Bool :=
  P.bcryptCompare (P.bcryptCode ++ strA) strB || P.bcryptCompare (P.bcryptCode ++ strB) strA

/-- `'20m'` and `'1d'` in seconds. -/
def accessExpiresIn : Nat := 1200

def refreshExpiresIn : Nat := 86400

def accessClaims (userId sessionId : String) : JwtPayload :=
  { type := some "access", userId := some userId, sessionId := some sessionId,
    iat := none, exp := none }

def refreshClaims (userId sessionId : String) : JwtPayload :=
  { type := some "refresh", userId := some userId, sessionId := some sessionId,
    iat := none, exp := none }

namespace Crypto.Lawful

variable {P} (hP : P.Lawful)
include hP

theorem decode_sign (claims : JwtPayload) (expiresIn now : Nat) :
    P.decodeJwt (P.sign claims expiresIn now) =
      some { claims with iat := some (now / 1000), exp := some (now / 1000 + expiresIn) } :=
  hP.decode_encode _

theorem extract_sign (claims : JwtPayload) {expiresIn : Nat} (now : Nat) (h : 0 < expiresIn) :
    P.extractJwtExpiresAt (P.sign claims expiresIn now) =
      .ok ((now / 1000 + expiresIn) * 1000) := by
  obtain ⟨n, rfl⟩ := Nat.exists_eq_add_of_lt h
  simp [extractJwtExpiresAt, hP.decode_sign, ← Nat.add_assoc]

theorem verify_sign (claims : JwtPayload) (expiresIn at_ now : Nat) :
    P.verify (P.sign claims expiresIn at_) now =
      if now / 1000 ≥ at_ / 1000 + expiresIn then .error .tokenExpired
      else .ok { claims with
        iat := some (at_ / 1000), exp := some (at_ / 1000 + expiresIn) } := by
  rw [verify, hP.decode_sign, sign, hP.signatureOk_encode]
  rfl

theorem sign_refresh_inj {u s u' s' : String} {t t' : Nat}
    (h : P.sign (refreshClaims u s) refreshExpiresIn t =
      P.sign (refreshClaims u' s') refreshExpiresIn t') :
    u = u' ∧ s = s' ∧ t / 1000 = t' / 1000 := by
  have h := congrArg P.decodeJwt h
  simp only [hP.decode_sign, refreshClaims, Option.some.injEq, JwtPayload.mk.injEq] at h
  exact ⟨h.2.1, h.2.2.1, h.2.2.2.1⟩

end Crypto.Lawful

/-- Symbolic primitives: a token is its claims and whether it was signed, and its own hash. The
collation is a binary one. -/
abbrev symbolic : Crypto where
  Token := JwtPayload × Bool
  Hash := JwtPayload × Bool
  Cipher := String × JwtPayload × Bool
  encodeJwt p := (p, true)
  decodeJwt t := some t.1
  signatureOk t := t.2
  sha256Hex t := t
  encryptAesGcm iv t := (iv, t)
  decryptAesGcm c := .ok c.2
  bcryptHash salt s := salt ++ "$" ++ s
  bcryptCompare a b := b = "salt" ++ "$" ++ a
  bcryptCode := "code"
  collate s := s

theorem symbolic_lawful : symbolic.Lawful where
  decode_encode _ := rfl
  signatureOk_encode _ := rfl
  sha256_injective _ _ h := h
  decrypt_encrypt _ _ := rfl

end NestHarness
