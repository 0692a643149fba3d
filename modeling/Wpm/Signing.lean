import Wpm.Lib.Check
import Wpm.JsonInput

/-!
Package signatures and the trust store of `signing.c`.

`Sodium` is what the program uses of libsodium. The trust store holds, for a key id, the text of
the file `<id>.pub` and whether a file `<id>.revoked` stands beside it. `validateSignatureBytes` is
the validator of the read-only path; it takes the signature and the index as buffers and asks
nothing of the user.
-/

namespace Wpm.Signing

open Wpm.Lib.CString Wpm.Lib.Check Wpm.JsonInput

/-! ### The library and the store -/

/-- libsodium: the 32-byte BLAKE2b digest, base64 decoding of a whole string into at most so many
bytes, and the check of a detached Ed25519 signature. -/
structure Sodium where
  generichash : Bytes → Bytes
  length_generichash : ∀ m, (generichash m).length = 32
  base642bin : ℕ → Bytes → Option Bytes
  signVerifyDetached : Bytes → Bytes → Bytes → Bool

/-- The trust store under the data root, and `has_data_override() || elevated()`. -/
structure TrustStore where
  dataRoot : Option Bytes
  pub : Bytes → Option Bytes
  revoked : Bytes → Bool
  authority : Bool

def pathSize : ℕ := 4096

def publicKeyBytes : ℕ := 32

def signBytes : ℕ := 64

variable (S : Sodium) (T : TrustStore)

/-! ### Texts -/

/-- The loop of `occurrences`. -/
def occurrencesFrom (value : Bytes) : ℕ → Bytes → ℕ
  | 0, _ => 0
  | fuel + 1, text =>
    match strstr value text with
    | none => 0
    | some p => occurrencesFrom value fuel (p.drop value.length) + 1

def occurrences (text value : Bytes) : ℕ := occurrencesFrom value text.length text

/-- `field`: what follows the name up to a line break or a quote, if it fits `size` bytes. -/
def field (text name : Bytes) (size : ℕ) : Option Bytes := do
  let p ← strstr name text
  let p := p.drop name.length
  let p := if cur p = ch '=' then p.tail else p
  let value := spanNot [13, 10, ch '"'] p
  guard (value ≠ [] ∧ value.length < size)
  some value

/-- `key_header_supported`. -/
def keyHeaderSupported (text header : Bytes) : Bool :=
  match strstr header text with
  | none => false
  | some p => cur (p.drop header.length) ∈ [0, 13, 10]

/-- `load_public`, on the bytes of the file. -/
def loadPublic (file : Bytes) : Option Bytes := do
  let text := cstr file
  guard (keyHeaderSupported text (str "wpm-public-key-v1"))
  let b64 ← field text (str "public-key=") 128
  let key ← S.base642bin publicKeyBytes b64
  guard (key.length = publicKeyBytes)
  some key

/-- `key_id`. -/
def keyId (publicKey : Bytes) : Bytes := bin2hex (S.generichash publicKey)

lemma length_keyId (publicKey : Bytes) : (keyId S publicKey).length = 64 := by
  rw [keyId, length_bin2hex, S.length_generichash]

/-! ### The signature file -/

/-- The three fields of `.wpm/signature.json`. -/
structure Signature where
  id : Bytes
  publicText : Bytes
  signatureText : Bytes

/-- The reading of `.wpm/signature.json`, the same in both validators. -/
def readSignature (text : Bytes) : Option Signature := do
  guard (occurrences text (str "\"version\"") = 1)
  guard (occurrences text (str "\"algorithm\"") = 1)
  guard (occurrences text (str "\"key_id\"") = 1)
  guard (occurrences text (str "\"public_key\"") = 1)
  guard (occurrences text (str "\"signature\"") = 1)
  guard (jsonVersionOne text)
  guard (strstr (str "\"algorithm\": \"ed25519\"") text).isSome
  let id ← field text (str "\"key_id\": \"") 65
  let publicText ← field text (str "\"public_key\": \"") 128
  let signatureText ← field text (str "\"signature\": \"") 256
  guard (id.length = 64)
  some ⟨id, publicText, signatureText⟩

/-- `sodium_base642bin` into a buffer that has to be filled. -/
def decodeExact (size : ℕ) (b64 : Bytes) : Option Bytes := do
  let bytes ← S.base642bin size b64
  guard (bytes.length = size)
  some bytes

/-- The tests that `wpm_validate_signature_bytes` makes of a signed package: the key id. -/
def validateSigned (text : Bytes) (index : Option Bytes) : Option Bytes := do
  let index ← index
  let s ← readSignature text
  guard ((spanOf (str "0123456789abcdef") s.id).length = 64)
  let root ← T.dataRoot
  guard (root.length + (str "\\trust\\").length + s.id.length + (str ".pub").length < pathSize)
  guard (root.length + (str "\\trust\\").length + s.id.length + (str ".revoked").length < pathSize)
  guard (T.revoked s.id = false)
  let file ← T.pub s.id
  let expectedKey ← loadPublic S file
  let publicKey ← decodeExact S publicKeyBytes s.publicText
  guard (publicKey = expectedKey)
  guard (s.id = keyId S publicKey)
  let detached ← decodeExact S signBytes s.signatureText
  guard (S.signVerifyDetached detached index publicKey = true)
  some s.id

/-- `wpm_validate_signature_bytes`: the signing key, or the error that is printed. -/
def validateSignatureBytes (signature index : Option Bytes) (allowUnsigned : Bool) :
    Except (List Bytes) Bytes :=
  match signature with
  | none => do
    require (allowUnsigned = true ∧ T.authority = true)
      [str "Error: unsigned package requires --allow-unsigned and an authorized data root.\n"]
    pure (str "unsigned")
  | some text =>
    orElse (validateSigned S T text index)
      [str "Error: package signature is invalid, revoked, or not already trusted; " ++
        str "use 'wpm trust add' for an independently verified public key first.\n"]

/-- A key of the store that is trusted and not revoked vouches for the bytes of the index. -/
structure TrustedFor (index : Bytes) (id : Bytes) : Prop where
  notRevoked : T.revoked id = false
  verified : ∃ file publicKey detached, T.pub id = some file ∧
    loadPublic S file = some publicKey ∧ keyId S publicKey = id ∧
    S.signVerifyDetached detached index publicKey = true

lemma validateSigned_eq_some {text id : Bytes} {index : Option Bytes}
    (h : validateSigned S T text index = some id) :
    ∃ bytes, index = some bytes ∧ TrustedFor S T bytes id := by
  simp only [validateSigned, option_bind_eq_some, Option.guard_eq_some', exists_const,
    Option.some.injEq] at h
  obtain ⟨bytes, rfl, s, -, -, root, -, -, -, hrev, file, hfile, key, hkey, publicKey, -, rfl, hid,
    detached, -, hverify, rfl⟩ := h
  exact ⟨bytes, rfl, hrev, file, publicKey, detached, hfile, hkey, hid.symm, hverify⟩

/-- **A signature that the read-only path accepts is one of a trusted key over the index.** -/
theorem validateSignatureBytes_signed {text id : Bytes} {index : Option Bytes} {allow : Bool}
    (h : validateSignatureBytes S T (some text) index allow = .ok id) :
    ∃ bytes, index = some bytes ∧ TrustedFor S T bytes id :=
  validateSigned_eq_some S T (orElse_eq_ok.1 h)

end Wpm.Signing
