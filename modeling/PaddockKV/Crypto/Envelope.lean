import PaddockKV.Basic

/-!
# Keys, nonces and associated data (`crypto/kdf.rs`, `crypto/aead.rs`, `crypto/envelope.rs`)

The hash, the key derivation and the cipher come from other crates and are
parameters here. Of the cipher it is assumed that opening inverts sealing.
-/

namespace PaddockKV.Crypto

def tagLen : ℕ := 16

/-- XXH3-64, HKDF-SHA256 and AES-256-GCM. -/
structure Primitives where
  xxh3 : Bytes → UInt64
  hkdf : (ikm info : Bytes) → Bytes
  sealText : (key nonce aad plaintext : Bytes) → Option Bytes
  openText : (key nonce aad ciphertext : Bytes) → Option Bytes
  open_seal : ∀ key nonce aad plaintext ciphertext,
    sealText key nonce aad plaintext = some ciphertext →
      openText key nonce aad ciphertext = some plaintext
  seal_length : ∀ key nonce aad plaintext ciphertext,
    sealText key nonce aad plaintext = some ciphertext →
      ciphertext.length = plaintext.length + tagLen

/-- A stand-in for concrete runs: no hash, and a tag of zeros. -/
def Primitives.blank : Primitives where
  xxh3 _ := 0
  hkdf ikm _ := ikm
  sealText _ _ _ plaintext := some (plaintext ++ zeros tagLen)
  openText _ _ _ ciphertext := some (ciphertext.take (ciphertext.length - tagLen))
  open_seal _ _ _ plaintext ciphertext h := by
    cases h
    simp
  seal_length _ _ _ plaintext ciphertext h := by
    cases h
    simp

-- `b"paddockkv:sstable:v1:"`
def sstableInfoPrefix : Bytes :=
  [0x70, 0x61, 0x64, 0x64, 0x6F, 0x63, 0x6B, 0x6B, 0x76, 0x3A, 0x73, 0x73, 0x74, 0x61, 0x62, 0x6C,
    0x65, 0x3A, 0x76, 0x31, 0x3A]

def deriveSstableKey (prims : Primitives) (master : Bytes) (sstableId : ℕ) : Bytes :=
  prims.hkdf master (sstableInfoPrefix ++ leBytes 8 sstableId)

def nonceFormatTag : ℕ := 0x43464F4E

def deriveBlockNonce (blockIndex : ℕ) : Bytes := leBytes 4 nonceFormatTag ++ leBytes 8 blockIndex

def blockAad (sstableId blockIndex : ℕ) : Bytes := leBytes 8 sstableId ++ leBytes 8 blockIndex

theorem deriveBlockNonce_inj {i j : ℕ} (hi : i < u64Size) (hj : j < u64Size)
    (h : deriveBlockNonce i = deriveBlockNonce j) : i = j := by
  have hbytes := List.append_cancel_left h
  have hval := congrArg leVal hbytes
  rwa [leVal_leBytes_of_lt (by simpa [u64Size] using hi),
    leVal_leBytes_of_lt (by simpa [u64Size] using hj)] at hval

theorem blockAad_inj {i i' o o' : ℕ} (hi : i < u64Size) (hi' : i' < u64Size) (ho : o < u64Size)
    (ho' : o' < u64Size) (h : blockAad i o = blockAad i' o') : i = i' ∧ o = o' := by
  obtain ⟨hid, hoff⟩ := List.append_inj h (by simp)
  have hid := congrArg leVal hid
  have hoff := congrArg leVal hoff
  rw [leVal_u64 hi, leVal_u64 hi'] at hid
  rw [leVal_u64 ho, leVal_u64 ho'] at hoff
  exact ⟨hid, hoff⟩

/-- `EncryptionCtx` of a writer and `DecryptionCtx` of a reader. -/
structure CryptoCtx where
  aeadKey : Bytes
  sstableId : ℕ
  deriving Repr, DecidableEq

namespace CryptoCtx

def sealBlock (prims : Primitives) (ctx : CryptoCtx) (offset : ℕ) (plaintext : Bytes) :
    Option Bytes :=
  prims.sealText ctx.aeadKey (deriveBlockNonce offset) (blockAad ctx.sstableId offset) plaintext

def openBlock (prims : Primitives) (ctx : CryptoCtx) (offset : ℕ) (onDisk : Bytes) : Option Bytes :=
  prims.openText ctx.aeadKey (deriveBlockNonce offset) (blockAad ctx.sstableId offset) onDisk

theorem openBlock_sealBlock {prims : Primitives} {ctx : CryptoCtx} {offset : ℕ}
    {plaintext onDisk : Bytes} (h : ctx.sealBlock prims offset plaintext = some onDisk) :
    ctx.openBlock prims offset onDisk = some plaintext :=
  prims.open_seal _ _ _ _ _ h

end CryptoCtx

end PaddockKV.Crypto
