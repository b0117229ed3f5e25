import Mathlib.Data.List.Basic

/-!
# Authenticated ciphers

An ideal authenticated cipher keeps the length of what it encrypts, and decrypts what it has encrypted and
nothing else. One is had from a cipher that undoes itself and a code over its output (`encryptThenMac`).
-/

structure AuthenticatedCipher (κ ν α τ : Type*) where
  encrypt : κ → ν → List α → List α × τ
  decrypt : κ → ν → List α → τ → Option (List α)
  length_encrypt : ∀ key nonce plain, (encrypt key nonce plain).1.length = plain.length
  decrypt_eq_some_iff : ∀ key nonce text tag plain,
    decrypt key nonce text tag = some plain ↔ encrypt key nonce plain = (text, tag)

namespace AuthenticatedCipher

variable {κ ν α τ : Type*} (cipher : AuthenticatedCipher κ ν α τ) {key : κ} {nonce : ν}
  {plain text : List α} {tag : τ}

theorem decrypt_of_encrypt (h : cipher.encrypt key nonce plain = (text, tag)) :
    cipher.decrypt key nonce text tag = some plain :=
  (cipher.decrypt_eq_some_iff key nonce text tag plain).mpr h

theorem length_of_encrypt (h : cipher.encrypt key nonce plain = (text, tag)) :
    text.length = plain.length := by
  rw [← cipher.length_encrypt key nonce plain, h]

theorem length_of_decrypt (h : cipher.decrypt key nonce text tag = some plain) :
    plain.length = text.length :=
  (cipher.length_of_encrypt ((cipher.decrypt_eq_some_iff key nonce text tag plain).mp h)).symm

/-- A cipher that undoes itself, with a code over the ciphertext. -/
def encryptThenMac [DecidableEq τ] (crypt : κ → ν → List α → List α) (mac : κ → ν → List α → τ)
    (hlength : ∀ key nonce plain, (crypt key nonce plain).length = plain.length)
    (hundo : ∀ key nonce plain, crypt key nonce (crypt key nonce plain) = plain) :
    AuthenticatedCipher κ ν α τ where
  encrypt key nonce plain := (crypt key nonce plain, mac key nonce (crypt key nonce plain))
  decrypt key nonce text tag :=
    if mac key nonce text = tag then some (crypt key nonce text) else none
  length_encrypt := hlength
  decrypt_eq_some_iff key nonce text tag plain := by
    constructor
    · intro h
      split at h
      · rename_i hmac
        obtain rfl := Option.some.inj h
        rw [hundo, hmac]
      · cases h
    · intro h
      obtain ⟨rfl, rfl⟩ := Prod.mk.inj h
      rw [if_pos rfl, hundo]

end AuthenticatedCipher
