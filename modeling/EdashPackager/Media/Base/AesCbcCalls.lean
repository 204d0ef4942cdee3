import EdashPackager.Media.Base.AesCbcEncryptor

/-!
# Sequences of calls on one CBC encryptor

An `AesCbcEncryptor` is driven by `SetIvInternal` and `CryptInternal` calls in any order, and a
refused call leaves it as it was. Across calls, `CryptInternal` chains through `internal_iv_`.
This file follows the encryptor through any such sequence, under every padding scheme. The
chaining block is always one a receiver of the ciphertexts already holds. With `kNoPadding`,
the whole blocks of the calls since the last IV form one CBC stream. Last, a receiver that
tracks the chaining block decrypts every call.
-/

namespace EdashPackager.Media

/-! ### Any sequence of calls on one encryptor -/

/-- A call on an `AesCbcEncryptor`: `SetIvInternal`, or `CryptInternal` with its buffer size. -/
inductive CbcCall
  | setIv (iv : List Byte)
  | crypt (plaintext : List Byte) (ciphertextSize : Nat)

namespace AesCbcEncryptor

/-- One call and what it returns; a refused `CryptInternal` returns `none` and changes nothing. -/
def call (E : BlockCipher) (s : AesCbcEncryptor) : CbcCall → Option (List Byte) × AesCbcEncryptor
  | .setIv iv => (none, s.setIvInternal iv)
  | .crypt p size =>
    match s.cryptInternal E p size with
    | some (c, s') => (some c, s')
    | none => (none, s)

def runCalls (E : BlockCipher) :
    AesCbcEncryptor → List CbcCall → List (Option (List Byte)) × AesCbcEncryptor
  | s, [] => ([], s)
  | s, c :: cs =>
    let r := s.call E c
    let rest := runCalls E r.2 cs
    (r.1 :: rest.1, rest.2)

variable {E : BlockCipher} {s : AesCbcEncryptor}

lemma length_internalIv_cryptInternal {p c : List Byte} {size : Nat} {s' : AesCbcEncryptor}
    (hiv : s.internalIv.length = 16) (h : s.cryptInternal E p size = some (c, s')) :
    s'.internalIv.length = 16 := by
  rw [cryptInternal_eq E (not_lt.mpr (le_of_cryptInternal E h))] at h
  split_ifs at h <;> obtain ⟨-, rfl⟩ := Prod.mk.inj (Option.some.inj h) <;> simp [hiv, cbcBlocks_one]

end AesCbcEncryptor

/-! ### The chaining block, read off the ciphertexts -/

/-- The last whole 16-byte block of a ciphertext, or `chain` when it has none. -/
def lastBlock (chain c : List Byte) : List Byte :=
  if c.length < 16 then chain else (c.drop (16 * (c.length / 16 - 1))).take 16

/-- The chaining block a receiver computes from the IVs and ciphertexts alone: a new IV
zero-extended, then the last whole block of each ciphertext that has one. -/
def receivedChain : List Byte → List (CbcCall × Option (List Byte)) → List Byte
  | chain, [] => chain
  | _, (.setIv iv, _) :: rest => receivedChain (resize iv 16 0) rest
  | chain, (.crypt _ _, some c) :: rest => receivedChain (lastBlock chain c) rest
  | chain, (.crypt _ _, none) :: rest => receivedChain chain rest

section Chain

variable (E : BlockCipher)

lemma lastBlock_append (chain : List Byte) {front blk tail : List Byte} {k : Nat}
    (hfront : front.length = 16 * k) (hblk : blk.length = 16) (htail : tail.length < 16) :
    lastBlock chain (front ++ blk ++ tail) = blk := by
  have hlen : (front ++ blk ++ tail).length / 16 - 1 = k := by simp; omega
  rw [lastBlock, if_neg (by simp; omega), hlen, List.append_assoc, List.drop_left' hfront,
    List.take_left' hblk]

/-- The last whole block of a CBC ciphertext followed by fewer than 16 bytes is the chaining
block `AES_cbc_encrypt` leaves. -/
lemma lastBlock_cbcBlocks (n : Nat) (x iv tail : List Byte) (htail : tail.length < 16) :
    lastBlock iv ((cbcBlocks E n x iv).1 ++ tail) = (cbcBlocks E n x iv).2 := by
  rcases Nat.eq_zero_or_pos n with rfl | hn
  · simp [lastBlock, htail]
  rw [cbcBlocks_snd E _ _ _ hn]
  conv_lhs => rw [← List.take_append_drop (16 * (n - 1)) (cbcBlocks E n x iv).1]
  exact lastBlock_append iv (k := n - 1) (by simp) (by simp; omega) htail

/-- Under every scheme a call leaves the last whole block of its ciphertext as chaining block;
with ciphertext stealing, the stolen block written before the last bytes. -/
lemma internalIv_of_cryptInternal {s s' : AesCbcEncryptor} {p c : List Byte} {size : Nat}
    (h : s.cryptInternal E p size = some (c, s')) : s'.internalIv = lastBlock s.internalIv c := by
  rw [AesCbcEncryptor.cryptInternal_eq E (not_lt.mpr (AesCbcEncryptor.le_of_cryptInternal E h))]
    at h
  split_ifs at h with hcts hwhole hno hpkcs <;> obtain ⟨rfl, rfl⟩ := Prod.mk.inj (Option.some.inj h)
  · -- less than a block under ciphertext stealing: nothing is encrypted
    exact (if_pos (by omega)).symm
  · -- whole blocks only
    simpa using (lastBlock_cbcBlocks E _ p s.internalIv [] (by simp)).symm
  · -- `kNoPadding`: the residual bytes follow in the clear
    exact (lastBlock_cbcBlocks E _ p s.internalIv _ (by simp; omega)).symm
  · -- `kPkcs5Padding`: the padded block comes last
    rw [cbcBlocks_one, ← List.append_nil (_ ++ _), lastBlock_append _ (length_cbcBlocks E _ _ _)
      (E.length_encrypt _) (by simp)]
  · -- `kCtsPadding`: the stolen block comes before the residual bytes
    rw [cbcBlocks_one, lastBlock_append _ (k := p.length / 16 - 1) (by simp; omega)
      (E.length_encrypt _) (by simp; omega)]

end Chain

namespace AesCbcEncryptor

lemma internalIv_runCalls {E : BlockCipher} (s : AesCbcEncryptor) (cs : List CbcCall) :
    (s.runCalls E cs).2.internalIv = receivedChain s.internalIv (cs.zip (s.runCalls E cs).1) := by
  induction cs generalizing s with
  | nil => rfl
  | cons c cs ih =>
    cases c with
    | setIv iv => exact ih (s.setIvInternal iv)
    | crypt p size =>
      rcases h : s.cryptInternal E p size with _ | ⟨c, s'⟩
      · simpa [runCalls, AesCbcEncryptor.call, h, receivedChain] using ih s
      · simpa [runCalls, AesCbcEncryptor.call, h, receivedChain,
          internalIv_of_cryptInternal E h] using ih s'

end AesCbcEncryptor

/-- After any sequence of calls, under every scheme, `internal_iv_` is the chaining block a
receiver computes from the IVs set and the ciphertexts returned. -/
theorem cbc_calls_chain_from_ciphertexts (E : BlockCipher) (s : AesCbcEncryptor)
    (calls : List CbcCall) :
    (s.runCalls E calls).2.internalIv =
      receivedChain s.internalIv (calls.zip (s.runCalls E calls).1) :=
  AesCbcEncryptor.internalIv_runCalls s calls

/-! ### `kNoPadding` calls against one CBC stream -/

/-- The abstract `kNoPadding` stream: the whole blocks since the IV was set form one CBC
stream, and a call's residual bytes stay in the clear, out of the chaining. -/
structure CbcStream where
  iv : List Byte
  blocks : List Byte

namespace CbcStream

def call (E : BlockCipher) (σ : CbcStream) : CbcCall → Option (List Byte) × CbcStream
  | .setIv iv => (none, ⟨resize iv 16 0, []⟩)
  | .crypt p size =>
    if size < p.length then (none, σ)
    else
      let whole := p.take (16 * (p.length / 16))
      (some ((cbcEncrypt E σ.iv (σ.blocks ++ whole)).drop σ.blocks.length ++
          p.drop (16 * (p.length / 16))),
        ⟨σ.iv, σ.blocks ++ whole⟩)

def runCalls (E : BlockCipher) : CbcStream → List CbcCall → List (Option (List Byte)) × CbcStream
  | σ, [] => ([], σ)
  | σ, c :: cs =>
    let r := σ.call E c
    let rest := runCalls E r.2 cs
    (r.1 :: rest.1, rest.2)

end CbcStream

/-- A `kNoPadding` encryptor at the end of a stream of whole blocks, chained from its last
ciphertext block. -/
structure StreamInv (E : BlockCipher) (σ : CbcStream) (s : AesCbcEncryptor) : Prop where
  paddingScheme_eq : s.paddingScheme = .kNoPadding
  length_blocks : σ.blocks.length % 16 = 0
  internalIv_eq : s.internalIv = (cbcBlocks E (σ.blocks.length / 16) σ.blocks σ.iv).2

section Stream

variable {E : BlockCipher}

lemma cbcBlocks_continue (iv blocks p : List Byte) (hb : blocks.length % 16 = 0) :
    cbcBlocks E ((blocks ++ p.take (16 * (p.length / 16))).length / 16)
        (blocks ++ p.take (16 * (p.length / 16))) iv =
      ((cbcBlocks E (blocks.length / 16) blocks iv).1 ++
          (cbcBlocks E (p.length / 16) p (cbcBlocks E (blocks.length / 16) blocks iv).2).1,
        (cbcBlocks E (p.length / 16) p (cbcBlocks E (blocks.length / 16) blocks iv).2).2) := by
  have hlen : (blocks ++ p.take (16 * (p.length / 16))).length / 16 =
      blocks.length / 16 + p.length / 16 := by
    simp only [List.length_append, List.length_take]; omega
  rw [hlen, cbcBlocks_add, cbcBlocks_append E _ _ _ _ (by omega),
    List.drop_append_of_le_length (by omega), List.drop_eq_nil_of_le (by omega), List.nil_append,
    cbcBlocks_take E _ p _ (Nat.mul_div_le _ _)]

lemma StreamInv.setIvInternal {s : AesCbcEncryptor} (hs : s.paddingScheme = .kNoPadding)
    (iv : List Byte) : StreamInv E ⟨resize iv 16 0, []⟩ (s.setIvInternal iv) :=
  ⟨hs, Nat.zero_mod 16, by simp [AesCbcEncryptor.setIvInternal]⟩

/-- One call keeps `StreamInv` and returns what the stream returns. -/
lemma StreamInv.call {σ : CbcStream} {s : AesCbcEncryptor} (h : StreamInv E σ s) (c : CbcCall) :
    (s.call E c).1 = (σ.call E c).1 ∧ StreamInv E (σ.call E c).2 (s.call E c).2 := by
  cases c with
  | setIv iv => exact ⟨rfl, StreamInv.setIvInternal h.paddingScheme_eq iv⟩
  | crypt p size =>
    by_cases hs : size < p.length
    · have hnone : s.cryptInternal E p size = none :=
        AesCbcEncryptor.cryptInternal_of_lt E
          (by simp [AesCbcEncryptor.numPaddingBytes, h.paddingScheme_eq]; omega)
      simpa [AesCbcEncryptor.call, CbcStream.call, hnone, hs] using h
    · have hb := h.length_blocks
      have hcont := cbcBlocks_continue (E := E) σ.iv σ.blocks p hb
      rw [← h.internalIv_eq] at hcont
      simp only [AesCbcEncryptor.call, CbcStream.call, if_neg hs,
        AesCbcEncryptor.cryptInternal_kNoPadding E h.paddingScheme_eq (not_lt.mp hs), cbcEncrypt,
        hcont, List.drop_left' (show (cbcBlocks E (σ.blocks.length / 16) σ.blocks σ.iv).1.length =
          σ.blocks.length by rw [length_cbcBlocks]; omega)]
      exact ⟨trivial, h.paddingScheme_eq, by simp only [List.length_append, List.length_take]; omega,
        by rw [hcont]⟩

lemma StreamInv.runCalls {σ : CbcStream} {s : AesCbcEncryptor} (h : StreamInv E σ s)
    (cs : List CbcCall) : (s.runCalls E cs).1 = (σ.runCalls E cs).1 := by
  induction cs generalizing σ s with
  | nil => rfl
  | cons c cs ih =>
    obtain ⟨hc, h1⟩ := h.call c
    simp only [AesCbcEncryptor.runCalls, CbcStream.runCalls, hc, ih h1]

end Stream

/-- From `SetIvInternal`, any `kNoPadding` call sequence, refused calls included, returns what
the stream model returns. -/
theorem cbc_no_padding_calls_refine_stream (E : BlockCipher) (s : AesCbcEncryptor)
    (hs : s.paddingScheme = .kNoPadding) (iv : List Byte) (calls : List CbcCall) :
    ((s.setIvInternal iv).runCalls E calls).1 =
      (CbcStream.runCalls E ⟨resize iv 16 0, []⟩ calls).1 :=
  (StreamInv.setIvInternal hs iv).runCalls calls

/-- Twenty bytes, then sixteen, then a new IV and a refused call. -/
theorem cbc_no_padding_calls_refine_stream_split :
    (⟨.kNoPadding, []⟩ : AesCbcEncryptor).paddingScheme = .kNoPadding ∧
    (((⟨.kNoPadding, []⟩ : AesCbcEncryptor).setIvInternal (List.replicate 16 0)).runCalls
        ⟨fun b => resize b 16 0, fun b => length_resize b 16 0⟩
        [.crypt (List.replicate 20 1) 20, .crypt (List.replicate 16 2) 16,
          .setIv (List.replicate 16 5), .crypt [7] 0]).1 =
      (CbcStream.runCalls ⟨fun b => resize b 16 0, fun b => length_resize b 16 0⟩
        ⟨resize (List.replicate 16 0) 16 0, []⟩
        [.crypt (List.replicate 20 1) 20, .crypt (List.replicate 16 2) 16,
          .setIv (List.replicate 16 5), .crypt [7] 0]).1 :=
  ⟨rfl, cbc_no_padding_calls_refine_stream ⟨fun b => resize b 16 0, fun b => length_resize b 16 0⟩
    _ rfl _ _⟩

/-! ### A receiver of the calls -/

/-- Modelled from the spec: a receiver's decryption of one ciphertext under the chaining block
(CBC with clear residual, CBC and PKCS#5 unpadding, or ciphertext stealing). -/
def decryptCall (D : List Byte → List Byte) (scheme : CbcPaddingScheme) (chain c : List Byte) :
    Option (List Byte) :=
  match scheme with
  | .kNoPadding => some (cbcDecrypt D chain c ++ c.drop (16 * (c.length / 16)))
  | .kPkcs5Padding => pkcs5Unpad (cbcDecrypt D chain c)
  | .kCtsPadding => some (ctsDecrypt D chain c)

/-- The receiver: each ciphertext decrypted under the chain `receivedChain` computes. -/
def receiveCalls (D : List Byte → List Byte) (scheme : CbcPaddingScheme) :
    List Byte → List (CbcCall × Option (List Byte)) → List (Option (List Byte))
  | _, [] => []
  | _, (.setIv iv, _) :: rest => none :: receiveCalls D scheme (resize iv 16 0) rest
  | chain, (.crypt _ _, some c) :: rest =>
    decryptCall D scheme chain c :: receiveCalls D scheme (lastBlock chain c) rest
  | chain, (.crypt _ _, none) :: rest => none :: receiveCalls D scheme chain rest

/-- The plaintexts of the calls carried out, and nothing for the other calls. -/
def sentPlaintexts : List (CbcCall × Option (List Byte)) → List (Option (List Byte))
  | [] => []
  | (.crypt p _, some _) :: rest => some p :: sentPlaintexts rest
  | _ :: rest => none :: sentPlaintexts rest

section Receiver

variable (E : BlockCipher) (D : List Byte → List Byte)
  (hD : ∀ b, b.length = 16 → D (E.encrypt b) = b)

lemma paddingScheme_of_cryptInternal {s s' : AesCbcEncryptor} {p c : List Byte} {size : Nat}
    (h : s.cryptInternal E p size = some (c, s')) : s'.paddingScheme = s.paddingScheme := by
  rw [AesCbcEncryptor.cryptInternal_eq E (not_lt.mpr (AesCbcEncryptor.le_of_cryptInternal E h))]
    at h
  split_ifs at h <;> obtain ⟨-, rfl⟩ := Prod.mk.inj (Option.some.inj h) <;> rfl

include hD

/-- Under every scheme, a call from a 16-byte chaining block is undone by the receiver. -/
lemma decryptCall_of_cryptInternal {s s' : AesCbcEncryptor} (hiv : s.internalIv.length = 16)
    {p c : List Byte} {size : Nat} (h : s.cryptInternal E p size = some (c, s')) :
    decryptCall D s.paddingScheme s.internalIv c = some p := by
  have hsize := AesCbcEncryptor.le_of_cryptInternal E h
  rcases hs : s.paddingScheme with _ | _ | _
  · -- `kNoPadding`: the whole blocks decrypt, the residual bytes are clear
    rw [AesCbcEncryptor.cryptInternal_kNoPadding E hs (by simpa [AesCbcEncryptor.numPaddingBytes,
      hs] using hsize)] at h
    cases h
    have hlen : ((cbcBlocks E (p.length / 16) p s.internalIv).1 ++
        p.drop (16 * (p.length / 16))).length / 16 = p.length / 16 := by simp; omega
    rw [decryptCall, cbcDecrypt, hlen, cbcDecryptBlocks_append D _ _ _ _ (length_cbcBlocks ..),
      cbcDecryptBlocks_cbcBlocks E D hD _ _ _ (Nat.mul_div_le _ _) hiv,
      List.drop_left' (length_cbcBlocks ..), List.take_append_drop]
  · -- `kPkcs5Padding`: the padded plaintext decrypts, and its padding comes off
    rw [AesCbcEncryptor.cryptInternal_kPkcs5Padding E hs (by simpa [AesCbcEncryptor.numPaddingBytes,
      hs] using hsize)] at h
    cases h
    have hx : (p ++ List.replicate (16 - p.length % 16)
        (BitVec.ofNat 8 (16 - p.length % 16))).length = 16 * (p.length / 16 + 1) := by simp; omega
    rw [decryptCall, cbcDecrypt, length_cbcBlocks, Nat.mul_div_cancel_left _ (by decide),
      cbcDecryptBlocks_cbcBlocks E D hD _ _ _ hx.ge hiv, List.take_of_length_le hx.le]
    exact pkcs5Unpad_append_replicate p (by omega) (by omega)
  · -- `kCtsPadding`
    exact congrArg some (ctsDecrypt_of_cryptInternal E D hD hs hiv h)

lemma receiveCalls_runCalls {s : AesCbcEncryptor} (hiv : s.internalIv.length = 16)
    (cs : List CbcCall) :
    receiveCalls D s.paddingScheme s.internalIv (cs.zip (s.runCalls E cs).1) =
      sentPlaintexts (cs.zip (s.runCalls E cs).1) := by
  induction cs generalizing s with
  | nil => rfl
  | cons c cs ih =>
    cases c with
    | setIv iv =>
      exact congrArg (none :: ·) (ih (s := s.setIvInternal iv) (length_resize _ _ _))
    | crypt p size =>
      rcases h : s.cryptInternal E p size with _ | ⟨c, s'⟩
      · simpa [AesCbcEncryptor.runCalls, AesCbcEncryptor.call, h, receiveCalls, sentPlaintexts]
          using ih hiv
      · have hrest := ih (AesCbcEncryptor.length_internalIv_cryptInternal hiv h)
        rw [paddingScheme_of_cryptInternal E h, internalIv_of_cryptInternal E h] at hrest
        simpa [AesCbcEncryptor.runCalls, AesCbcEncryptor.call, h, receiveCalls, sentPlaintexts,
          decryptCall_of_cryptInternal E D hD hiv h] using hrest

end Receiver

/-- Under every scheme, a receiver that knows only the scheme, the IVs and the ciphertexts
decrypts every call of any sequence of calls, refused ones included. -/
theorem cbc_calls_round_trip (E : BlockCipher) (D : List Byte → List Byte)
    (hD : ∀ b, b.length = 16 → D (E.encrypt b) = b) (s : AesCbcEncryptor) (iv : List Byte)
    (calls : List CbcCall) :
    receiveCalls D s.paddingScheme (resize iv 16 0)
        (calls.zip ((s.setIvInternal iv).runCalls E calls).1) =
      sentPlaintexts (calls.zip ((s.setIvInternal iv).runCalls E calls).1) :=
  receiveCalls_runCalls E D hD (s := s.setIvInternal iv) (length_resize _ _ _) calls

/-- PKCS#5 calls of three and twenty bytes, chained, and a refused call. -/
theorem cbc_calls_round_trip_pkcs5 :
    (∀ b : List Byte, b.length = 16 → id (resize b 16 0) = b) ∧
    receiveCalls id (⟨.kPkcs5Padding, []⟩ : AesCbcEncryptor).paddingScheme
        (resize (List.replicate 16 0) 16 0)
        ([.crypt [1, 2, 3] 16, .crypt (List.replicate 20 4) 32, .crypt [5] 0].zip
          (((⟨.kPkcs5Padding, []⟩ : AesCbcEncryptor).setIvInternal (List.replicate 16 0)).runCalls
            ⟨fun b => resize b 16 0, fun b => length_resize b 16 0⟩
            [.crypt [1, 2, 3] 16, .crypt (List.replicate 20 4) 32, .crypt [5] 0]).1) =
      sentPlaintexts ([.crypt [1, 2, 3] 16, .crypt (List.replicate 20 4) 32, .crypt [5] 0].zip
        (((⟨.kPkcs5Padding, []⟩ : AesCbcEncryptor).setIvInternal (List.replicate 16 0)).runCalls
          ⟨fun b => resize b 16 0, fun b => length_resize b 16 0⟩
          [.crypt [1, 2, 3] 16, .crypt (List.replicate 20 4) 32, .crypt [5] 0]).1) :=
  ⟨fun b hb => resize_of_length_eq b 16 0 hb,
    cbc_calls_round_trip ⟨fun b => resize b 16 0, fun b => length_resize b 16 0⟩ id
      (fun b hb => resize_of_length_eq b 16 0 hb) _ _ _⟩

end EdashPackager.Media
