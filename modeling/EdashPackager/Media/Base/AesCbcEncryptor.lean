import EdashPackager.Media.Base.AesEncryptor

/-!
# AES CBC mode

`AesCbcEncryptor::CryptInternal` encrypts the whole blocks of a buffer with `AES_cbc_encrypt`,
chaining through `internal_iv_`, and then treats the residual bytes by its padding scheme:
left in the clear (`kNoPadding`), padded to a block with PKCS#5 (`kPkcs5Padding`), or
encrypted by ciphertext stealing (`kCtsPadding`). Only `kNoPadding` may chain the IV from one
call to the next; the constructor checks that the other two use a constant IV.

The branch lemmas below say what one call computes under each scheme. The three main results
follow from them: calls on block-aligned pieces chain like one call on the whole buffer; PKCS#5
output is CBC of the padded plaintext and decrypts back; ciphertext stealing keeps the length
and loses no information.
-/

namespace EdashPackager.Media

/-- `CbcPaddingScheme`. -/
inductive CbcPaddingScheme
  | kNoPadding
  | kPkcs5Padding
  | kCtsPadding
  deriving DecidableEq, Repr

/-- `ConstantIvFlag` of the base class `AesCryptor`, whose header is not among the sources. -/
inductive ConstantIvFlag
  | kUseConstantIv
  | kDontUseConstantIv
  deriving DecidableEq, Repr

/-- The fields of an `AesCbcEncryptor` that its methods use. -/
structure AesCbcEncryptor where
  paddingScheme : CbcPaddingScheme
  internalIv : List Byte
  deriving DecidableEq, Repr

namespace AesCbcEncryptor

/-- `AesCbcEncryptor(padding_scheme, constant_iv_flag)`: `none` where its `CHECK_EQ` aborts. -/
def new (paddingScheme : CbcPaddingScheme) (constantIvFlag : ConstantIvFlag) :
    Option AesCbcEncryptor :=
  if paddingScheme ≠ .kNoPadding ∧ constantIvFlag ≠ .kUseConstantIv then none
  else some ⟨paddingScheme, []⟩

/-- `AesCbcEncryptor(padding_scheme)`: no constant IV. -/
def ofPaddingScheme (paddingScheme : CbcPaddingScheme) : Option AesCbcEncryptor :=
  new paddingScheme .kDontUseConstantIv

/-- `AesCbcEncryptor::SetIvInternal`, for `iv` the IV held by the base class. -/
def setIvInternal (s : AesCbcEncryptor) (iv : List Byte) : AesCbcEncryptor :=
  { s with internalIv := resize iv 16 0 }

/-- `AesCbcEncryptor::NumPaddingBytes`. -/
def numPaddingBytes (s : AesCbcEncryptor) (size : Nat) : Nat :=
  if s.paddingScheme = .kPkcs5Padding then 16 - size % 16 else 0

/-- `AesCbcEncryptor::CryptInternal`: refused when the output buffer has no room for the
plaintext and its padding. -/
def cryptInternal (E : BlockCipher) (s : AesCbcEncryptor) (plaintext : List Byte)
    (ciphertextSize : Nat) : Option (List Byte × AesCbcEncryptor) :=
  let residualBlockSize := plaintext.length % 16
  let numPaddingBytes := s.numPaddingBytes plaintext.length
  if ciphertextSize < plaintext.length + numPaddingBytes then none
  else
    -- Encrypt everything but the residual block using CBC.
    let cbcSize := plaintext.length - residualBlockSize
    if cbcSize = 0 ∧ s.paddingScheme = .kCtsPadding then
      -- Don't have a full block, leave unencrypted.
      some (plaintext, s)
    else
      let r := if cbcSize ≠ 0 then aesCbcEncrypt E plaintext cbcSize s.internalIv
        else ([], s.internalIv)
      let ciphertext := r.1
      let s := { s with internalIv := r.2 }
      if residualBlockSize = 0 ∧ s.paddingScheme ≠ .kPkcs5Padding then
        -- No residual block. No need to do padding.
        some (ciphertext, s)
      else if s.paddingScheme = .kNoPadding then
        -- The residual block is left unencrypted.
        some (ciphertext ++ plaintext.drop cbcSize, s)
      else
        let residualBlock := plaintext.drop cbcSize
        if s.paddingScheme = .kPkcs5Padding then
          -- Pad residue block with PKCS5 padding.
          let r := aesCbcEncrypt E (resize residualBlock 16 (BitVec.ofNat 8 numPaddingBytes)) 16
            s.internalIv
          some (ciphertext ++ r.1, { s with internalIv := r.2 })
        else
          -- Zero-pad the residual block and encrypt using CBC, then swap it with the last
          -- full block: the residual bytes become the head of that block's ciphertext.
          let r := aesCbcEncrypt E (resize residualBlock 16 0) 16 s.internalIv
          some (ciphertext.take (cbcSize - 16) ++ r.1 ++
              (ciphertext.drop (cbcSize - 16)).take residualBlockSize,
            { s with internalIv := r.2 })

/-! ### One call, by padding scheme -/

section Branches

variable (E : BlockCipher) {s : AesCbcEncryptor} {p : List Byte} {size : Nat}

/-- The whole blocks, encrypted when there is at least one. -/
lemma cbcPart_eq (iv : List Byte) :
    (if ¬16 * (p.length / 16) = 0 then aesCbcEncrypt E p (16 * (p.length / 16)) iv
      else ([], iv)) = cbcBlocks E (p.length / 16) p iv := by
  by_cases h : 16 * (p.length / 16) = 0
  · rw [if_neg (not_not.mpr h), show p.length / 16 = 0 by omega, cbcBlocks_zero]
  · rw [if_pos h, aesCbcEncrypt, Nat.mul_div_cancel_left _ (by decide)]

lemma cryptInternal_of_lt (h : size < p.length + s.numPaddingBytes p.length) :
    s.cryptInternal E p size = none := by
  simp [cryptInternal, h]

/-- A call carried out had room for the plaintext and its padding. -/
lemma le_of_cryptInternal {c : List Byte} {s' : AesCbcEncryptor}
    (h : s.cryptInternal E p size = some (c, s')) : p.length + s.numPaddingBytes p.length ≤ size :=
  not_lt.mp fun hlt => by simp [cryptInternal_of_lt E hlt] at h

/-- `CryptInternal` once the buffer is large enough, with the `CBC` part computed. -/
lemma cryptInternal_eq (hsize : ¬size < p.length + s.numPaddingBytes p.length) :
    s.cryptInternal E p size =
      if 16 * (p.length / 16) = 0 ∧ s.paddingScheme = .kCtsPadding then some (p, s)
      else
        let r := cbcBlocks E (p.length / 16) p s.internalIv
        if p.length % 16 = 0 ∧ s.paddingScheme ≠ .kPkcs5Padding then
          some (r.1, { s with internalIv := r.2 })
        else if s.paddingScheme = .kNoPadding then
          some (r.1 ++ p.drop (16 * (p.length / 16)), { s with internalIv := r.2 })
        else if s.paddingScheme = .kPkcs5Padding then
          let r' := cbcBlocks E 1 (resize (p.drop (16 * (p.length / 16))) 16
            (BitVec.ofNat 8 (s.numPaddingBytes p.length))) r.2
          some (r.1 ++ r'.1, { s with internalIv := r'.2 })
        else
          let r' := cbcBlocks E 1 (resize (p.drop (16 * (p.length / 16))) 16 0) r.2
          some (r.1.take (16 * (p.length / 16) - 16) ++ r'.1 ++
              (r.1.drop (16 * (p.length / 16) - 16)).take (p.length % 16),
            { s with internalIv := r'.2 }) := by
  have hcbc : p.length - p.length % 16 = 16 * (p.length / 16) := by omega
  simp only [cryptInternal, hsize, if_false]
  rw [hcbc, cbcPart_eq]
  rfl

lemma exists_cryptInternal (hsize : p.length + s.numPaddingBytes p.length ≤ size) :
    ∃ c s', s.cryptInternal E p size = some (c, s') := by
  rw [cryptInternal_eq E (not_lt.mpr hsize)]
  split_ifs <;> exact ⟨_, _, rfl⟩

lemma cryptInternal_kNoPadding (hs : s.paddingScheme = .kNoPadding) (hsize : p.length ≤ size) :
    s.cryptInternal E p size =
      some ((cbcBlocks E (p.length / 16) p s.internalIv).1 ++ p.drop (16 * (p.length / 16)),
        { s with internalIv := (cbcBlocks E (p.length / 16) p s.internalIv).2 }) := by
  rw [cryptInternal_eq E (by simp [numPaddingBytes, hs]; omega)]
  by_cases hr : p.length % 16 = 0
  · simp [hs, hr, List.drop_eq_nil_of_le (show p.length ≤ 16 * (p.length / 16) by omega)]
  · simp [hs, hr]

lemma cryptInternal_kPkcs5Padding (hs : s.paddingScheme = .kPkcs5Padding)
    (hsize : p.length + (16 - p.length % 16) ≤ size) :
    s.cryptInternal E p size =
      some ((cbcBlocks E (p.length / 16 + 1)
          (p ++ List.replicate (16 - p.length % 16) (BitVec.ofNat 8 (16 - p.length % 16)))
          s.internalIv).1,
        { s with internalIv := (cbcBlocks E (p.length / 16 + 1)
          (p ++ List.replicate (16 - p.length % 16) (BitVec.ofNat 8 (16 - p.length % 16)))
          s.internalIv).2 }) := by
  have hpad : resize (p.drop (16 * (p.length / 16))) 16 (BitVec.ofNat 8 (16 - p.length % 16)) =
      p.drop (16 * (p.length / 16)) ++
        List.replicate (16 - p.length % 16) (BitVec.ofNat 8 (16 - p.length % 16)) := by
    rw [resize_append_replicate _ _ _ (by simp; omega)]
    congr 2
    simp
    omega
  have hfront : ∀ pad : List Byte, cbcBlocks E (p.length / 16) (p ++ pad) s.internalIv =
      cbcBlocks E (p.length / 16) p s.internalIv := fun pad => by
    rw [← cbcBlocks_take E _ (p ++ pad) _ (by simp; omega),
      List.take_append_of_le_length (by omega), cbcBlocks_take E _ p _ (by omega)]
  rw [cryptInternal_eq E (by simp [numPaddingBytes, hs]; omega)]
  simp only [hs, numPaddingBytes, reduceCtorEq, false_and, if_false, ne_eq, not_true_eq_false,
    and_false, if_true]
  rw [cbcBlocks_add, hfront, List.drop_append_of_le_length (by omega), hpad]

lemma cryptInternal_kCtsPadding_of_lt (hs : s.paddingScheme = .kCtsPadding)
    (hlt : p.length < 16) (hsize : p.length ≤ size) : s.cryptInternal E p size = some (p, s) := by
  rw [cryptInternal_eq E (by simp [numPaddingBytes, hs]; omega)]
  simp [hs, show p.length / 16 = 0 by omega]

lemma cryptInternal_kCtsPadding_of_mod_eq_zero (hs : s.paddingScheme = .kCtsPadding)
    (h16 : 16 ≤ p.length) (hr : p.length % 16 = 0) (hsize : p.length ≤ size) :
    s.cryptInternal E p size =
      some ((cbcBlocks E (p.length / 16) p s.internalIv).1,
        { s with internalIv := (cbcBlocks E (p.length / 16) p s.internalIv).2 }) := by
  rw [cryptInternal_eq E (by simp [numPaddingBytes, hs]; omega)]
  simp [hs, hr, show ¬16 * (p.length / 16) = 0 by omega]

/-- Ciphertext stealing: the encrypted zero-padded residual takes the last full block's place,
and the head of that block's ciphertext follows it. -/
lemma cryptInternal_kCtsPadding_steal (hs : s.paddingScheme = .kCtsPadding)
    (h16 : 16 ≤ p.length) (hr : p.length % 16 ≠ 0) (hsize : p.length ≤ size) :
    s.cryptInternal E p size =
      some ((cbcBlocks E (p.length / 16) p s.internalIv).1.take (16 * (p.length / 16) - 16) ++
          (cbcBlocks E 1 (resize (p.drop (16 * (p.length / 16))) 16 0)
            (cbcBlocks E (p.length / 16) p s.internalIv).2).1 ++
          ((cbcBlocks E (p.length / 16) p s.internalIv).1.drop (16 * (p.length / 16) - 16)).take
            (p.length % 16),
        { s with internalIv := (cbcBlocks E 1 (resize (p.drop (16 * (p.length / 16))) 16 0)
            (cbcBlocks E (p.length / 16) p s.internalIv).2).2 }) := by
  rw [cryptInternal_eq E (by simp [numPaddingBytes, hs]; omega)]
  simp [hs, hr, show ¬16 * (p.length / 16) = 0 by omega]

end Branches

end AesCbcEncryptor

/-! ### `kNoPadding`: chaining across calls -/

section NoPadding

variable (E : BlockCipher)

lemma cryptCalls_kNoPadding (t : AesCbcEncryptor) (ht : t.paddingScheme = .kNoPadding)
    (calls : List (List Byte × Nat)) (hsize : ∀ c ∈ calls, c.1.length ≤ c.2)
    (haligned : ∀ c ∈ calls.dropLast, c.1.length % 16 = 0) :
    ∃ outs t', cryptCalls (AesCbcEncryptor.cryptInternal E) t calls = some (outs, t') ∧
      outs.flatten = (cbcBlocks E ((calls.map Prod.fst).flatten.length / 16)
          (calls.map Prod.fst).flatten t.internalIv).1 ++
        (calls.map Prod.fst).flatten.drop (16 * ((calls.map Prod.fst).flatten.length / 16)) := by
  induction calls generalizing t with
  | nil => exact ⟨[], t, rfl, rfl⟩
  | cons call rest ih =>
    obtain ⟨p, size⟩ := call
    have hcall := AesCbcEncryptor.cryptInternal_kNoPadding E ht
      (hsize (p, size) (List.mem_cons_self _ _))
    cases rest with
    | nil => exact ⟨_, _, by rw [cryptCalls_cons_of_eq _ hcall]; rfl, by simp⟩
    | cons next rest =>
      have hp : p.length % 16 = 0 := haligned (p, size) (by simp)
      have hpa : p.length = 16 * (p.length / 16) := by omega
      obtain ⟨outs, t', hrun, hflat⟩ := ih { t with internalIv :=
          (cbcBlocks E (p.length / 16) p t.internalIv).2 } ht
        (fun c hc => hsize c (List.mem_cons_of_mem _ hc))
        (fun c hc => haligned c (by rw [List.dropLast_cons₂]; exact List.mem_cons_of_mem _ hc))
      refine ⟨_, t', by rw [cryptCalls_cons_of_eq _ hcall, hrun]; rfl, ?_⟩
      simp only [List.map_cons, List.flatten_cons] at hflat ⊢
      generalize next.1 ++ (rest.map Prod.fst).flatten = R at hflat ⊢
      have hlen : (p ++ R).length / 16 = p.length / 16 + R.length / 16 := by simp; omega
      rw [hflat, List.drop_eq_nil_of_le (by omega), List.append_nil, hlen, cbcBlocks_add,
        cbcBlocks_append E _ p R _ hpa, List.drop_left' hpa, Nat.mul_add, ← hpa,
        List.drop_append, List.append_assoc]

lemma internalIv_after_kNoPadding {t t' : AesCbcEncryptor} (ht : t.paddingScheme = .kNoPadding)
    {p c : List Byte} {size : Nat} (h : t.cryptInternal E p size = some (c, t')) :
    t'.internalIv =
      if p.length < 16 then t.internalIv else (c.drop (16 * (p.length / 16 - 1))).take 16 := by
  by_cases hsize : p.length ≤ size
  · rw [AesCbcEncryptor.cryptInternal_kNoPadding E ht hsize, Option.some.injEq,
      Prod.mk.injEq] at h
    obtain ⟨rfl, rfl⟩ := h
    split_ifs with hlt
    · simp [show p.length / 16 = 0 by omega]
    · have hm : 0 < p.length / 16 := by omega
      rw [cbcBlocks_snd E _ _ _ hm, List.drop_append_of_le_length (by simp),
        List.take_left' (by simp; omega)]
  · rw [AesCbcEncryptor.cryptInternal_of_lt E (by simp [AesCbcEncryptor.numPaddingBytes, ht]; omega)]
      at h
    cases h

end NoPadding

/-- With `kNoPadding`, calls on whole blocks but for the last chain like one call on their
concatenation `P`: CBC of the whole blocks of `P` under the zero-extended IV, then the residual
of `P`; each call leaves its last ciphertext block, if any, as the chaining block. -/
theorem cbc_no_padding_calls_chain (E : BlockCipher) (s : AesCbcEncryptor)
    (hs : s.paddingScheme = .kNoPadding) (iv : List Byte) (calls : List (List Byte × Nat))
    (hsize : ∀ c ∈ calls, c.1.length ≤ c.2)
    (haligned : ∀ c ∈ calls.dropLast, c.1.length % 16 = 0) :
    (∃ outs s', cryptCalls (AesCbcEncryptor.cryptInternal E) (s.setIvInternal iv) calls =
        some (outs, s') ∧
      (∃ s'', (s.setIvInternal iv).cryptInternal E (calls.map Prod.fst).flatten
        (calls.map Prod.fst).flatten.length = some (outs.flatten, s'')) ∧
      outs.flatten = cbcEncrypt E (resize iv 16 0) (calls.map Prod.fst).flatten ++
        (calls.map Prod.fst).flatten.drop (16 * ((calls.map Prod.fst).flatten.length / 16))) ∧
    ∀ (t : AesCbcEncryptor) (p : List Byte) (size : Nat) (c : List Byte) (t' : AesCbcEncryptor),
      t.paddingScheme = .kNoPadding → t.cryptInternal E p size = some (c, t') →
      t'.internalIv =
        if p.length < 16 then t.internalIv else (c.drop (16 * (p.length / 16 - 1))).take 16 := by
  obtain ⟨outs, s', hrun, hflat⟩ :=
    cryptCalls_kNoPadding E (s.setIvInternal iv) hs calls hsize haligned
  refine ⟨⟨outs, s', hrun, ?_, hflat⟩, fun t p size c t' ht h => internalIv_after_kNoPadding E ht h⟩
  rw [AesCbcEncryptor.cryptInternal_kNoPadding E (s := s.setIvInternal iv) hs le_rfl, hflat]
  exact ⟨_, rfl⟩

theorem cbc_no_padding_calls_chain_two_calls :
    (⟨.kNoPadding, []⟩ : AesCbcEncryptor).paddingScheme = .kNoPadding ∧
      (∀ c ∈ [(List.replicate 16 (7#8), 16), ([1#8, 2#8], 2)], c.1.length ≤ c.2) ∧
      (∀ c ∈ [(List.replicate 16 (7#8), 16), ([1#8, 2#8], 2)].dropLast, c.1.length % 16 = 0) ∧
      ∃ outs s', cryptCalls
        (AesCbcEncryptor.cryptInternal ⟨fun b => resize b 16 0, fun b => length_resize b 16 0⟩)
        ((⟨.kNoPadding, []⟩ : AesCbcEncryptor).setIvInternal (List.replicate 16 0))
        [(List.replicate 16 (7#8), 16), ([1#8, 2#8], 2)] = some (outs, s') := by
  have hsize : ∀ c ∈ [(List.replicate 16 (7#8), 16), ([1#8, 2#8], 2)], c.1.length ≤ c.2 := by
    decide
  have haligned : ∀ c ∈ [(List.replicate 16 (7#8), 16), ([1#8, 2#8], 2)].dropLast,
      c.1.length % 16 = 0 := by decide
  obtain ⟨⟨outs, s', hrun, -⟩, -⟩ := cbc_no_padding_calls_chain
    ⟨fun b => resize b 16 0, fun b => length_resize b 16 0⟩ ⟨.kNoPadding, []⟩ rfl
    (List.replicate 16 0) _ hsize haligned
  exact ⟨rfl, hsize, haligned, outs, s', hrun⟩

/-! ### `kPkcs5Padding` -/

/-- Modelled from the spec: PKCS#5 unpadding, `none` for a buffer not so padded. -/
def pkcs5Unpad (x : List Byte) : Option (List Byte) :=
  match x.getLast? with
  | none => none
  | some b =>
    if 1 ≤ b.toNat ∧ b.toNat ≤ x.length ∧ x.drop (x.length - b.toNat) = List.replicate b.toNat b
    then some (x.take (x.length - b.toNat)) else none

lemma pkcs5Unpad_append_replicate (p : List Byte) {n : Nat} (h1 : 1 ≤ n) (h16 : n ≤ 16) :
    pkcs5Unpad (p ++ List.replicate n (BitVec.ofNat 8 n)) = some p := by
  have hn : (BitVec.ofNat 8 n).toNat = n := by simp; omega
  have hlast : (p ++ List.replicate n (BitVec.ofNat 8 n)).getLast? = some (BitVec.ofNat 8 n) := by
    obtain ⟨m, rfl⟩ : ∃ m, n = m + 1 := ⟨n - 1, by omega⟩
    rw [List.replicate_succ', ← List.append_assoc, List.getLast?_append_of_ne_nil _ (by simp)]
    simp
  simp only [pkcs5Unpad, hlast, hn, List.length_append, List.length_replicate, Nat.add_sub_cancel]
  rw [if_pos ⟨h1, by omega, List.drop_left' rfl⟩, List.take_left' rfl]

/-- With `kPkcs5Padding` and a 16-byte chaining block, a call with room writes `|p| + n` bytes,
`n = 16 - |p| mod 16`: CBC of `p` and `n` bytes of value `n`, which CBC decryption and
unpadding undo. -/
theorem cbc_pkcs5_crypt (E : BlockCipher) (iv : List Byte) (hiv : iv.length = 16)
    (p : List Byte) (size : Nat) (hsize : p.length + (16 - p.length % 16) ≤ size) :
    ∃ c s', (⟨.kPkcs5Padding, iv⟩ : AesCbcEncryptor).cryptInternal E p size = some (c, s') ∧
      c.length = p.length + (16 - p.length % 16) ∧
      c = cbcEncrypt E iv
        (p ++ List.replicate (16 - p.length % 16) (BitVec.ofNat 8 (16 - p.length % 16))) ∧
      ∀ D : List Byte → List Byte, (∀ b, b.length = 16 → D (E.encrypt b) = b) →
        pkcs5Unpad (cbcDecrypt D iv c) = some p := by
  have hcall := AesCbcEncryptor.cryptInternal_kPkcs5Padding E (s := ⟨.kPkcs5Padding, iv⟩) rfl hsize
  have hx : (p ++ List.replicate (16 - p.length % 16)
      (BitVec.ofNat 8 (16 - p.length % 16))).length = 16 * (p.length / 16 + 1) := by simp; omega
  refine ⟨_, _, hcall, by rw [length_cbcBlocks]; omega,
    by rw [cbcEncrypt, hx, Nat.mul_div_cancel_left _ (by decide)], fun D hD => ?_⟩
  rw [cbcDecrypt, length_cbcBlocks, Nat.mul_div_cancel_left _ (by decide),
    cbcDecryptBlocks_cbcBlocks E D hD _ _ _ hx.ge hiv, List.take_of_length_le hx.le]
  exact pkcs5Unpad_append_replicate p (by omega) (by omega)

theorem cbc_pkcs5_crypt_empty :
    (List.replicate 16 (0#8)).length = 16 ∧ ([] : List Byte).length + (16 - 0 % 16) ≤ 16 ∧
      ∃ c s', (⟨.kPkcs5Padding, List.replicate 16 0⟩ : AesCbcEncryptor).cryptInternal
          ⟨fun b => resize b 16 0, fun b => length_resize b 16 0⟩ [] 16 = some (c, s') ∧
        c = cbcEncrypt ⟨fun b => resize b 16 0, fun b => length_resize b 16 0⟩
          (List.replicate 16 0) (List.replicate 16 (16#8)) := by
  obtain ⟨c, s', hc, -, hcbc, -⟩ := cbc_pkcs5_crypt
    ⟨fun b => resize b 16 0, fun b => length_resize b 16 0⟩ (List.replicate 16 0) rfl [] 16
    (by decide)
  exact ⟨rfl, by decide, c, s', hc, hcbc⟩

/-! ### `kCtsPadding` -/

section Cts

variable (E : BlockCipher)

/-- Ciphertext stealing over `k + 1` whole blocks and a residual, block by block. -/
lemma cryptInternal_kCtsPadding_blocks {s : AesCbcEncryptor} (hs : s.paddingScheme = .kCtsPadding)
    {p : List Byte} {size : Nat} (k : Nat) (hk : p.length / 16 = k + 1) (hr : p.length % 16 ≠ 0)
    (hsize : p.length ≤ size) :
    ∃ s', s.cryptInternal E p size = some ((cbcBlocks E k p s.internalIv).1 ++
      E.encrypt (xorBytes (p.drop (16 * (k + 1)) ++ List.replicate (16 - p.length % 16) 0)
        (E.encrypt (xorBytes ((p.drop (16 * k)).take 16) (cbcBlocks E k p s.internalIv).2))) ++
      (E.encrypt (xorBytes ((p.drop (16 * k)).take 16)
        (cbcBlocks E k p s.internalIv).2)).take (p.length % 16), s') := by
  have hres : (p.drop (16 * (k + 1))).length = p.length % 16 := by simp; omega
  have hpad : resize (p.drop (16 * (k + 1))) 16 0 =
      p.drop (16 * (k + 1)) ++ List.replicate (16 - p.length % 16) 0 := by
    rw [resize_append_replicate _ _ _ (by omega), hres]
  rw [AesCbcEncryptor.cryptInternal_kCtsPadding_steal E hs (by omega) hr hsize, hk,
    cbcBlocks_add, cbcBlocks_one, cbcBlocks_one, hpad,
    List.take_of_length_le (show (p.drop (16 * (k + 1)) ++ _).length ≤ 16 by simp; omega),
    show 16 * (k + 1) - 16 = 16 * k by omega, List.take_left' (by simp),
    List.drop_left' (by simp)]
  exact ⟨_, rfl⟩

lemma zero_pad_chain_injective
    (hE : ∀ a b, a.length = 16 → b.length = 16 → E.encrypt a = E.encrypt b → a = b)
    {d d' b b' : List Byte} {r : Nat} (hd : d.length = r) (hd' : d'.length = r) (h16 : r ≤ 16)
    (hb : b.length = 16) (hb' : b'.length = 16)
    (hc : E.encrypt (xorBytes (d ++ List.replicate (16 - r) 0) b) =
      E.encrypt (xorBytes (d' ++ List.replicate (16 - r) 0) b'))
    (hhead : b.take r = b'.take r) : d = d' ∧ b = b' := by
  have hx := hE _ _
    (by rw [length_xorBytes, List.length_append, List.length_replicate, hd, hb]; omega)
    (by rw [length_xorBytes, List.length_append, List.length_replicate, hd', hb']; omega) hc
  have e := xorBytes_zero_pad (d := d) (b := b) (by omega)
  have e' := xorBytes_zero_pad (d := d') (b := b') (by omega)
  rw [hb, hd] at e
  rw [hb', hd'] at e'
  rw [e, e', hhead] at hx
  obtain ⟨hxor, htail⟩ := List.append_inj hx
    (by simp only [length_xorBytes, List.length_take, hd, hd', hb, hb'])
  have hbb : b = b' := by
    rw [← List.take_append_drop r b, ← List.take_append_drop r b', hhead, htail]
  exact ⟨xorBytes_left_injective (by simp; omega) (by simp; omega) hxor, hbb⟩

lemma eq_of_block_parts {p q : List Byte} (k : Nat) (h1 : p.take (16 * k) = q.take (16 * k))
    (h2 : (p.drop (16 * k)).take 16 = (q.drop (16 * k)).take 16)
    (h3 : p.drop (16 * (k + 1)) = q.drop (16 * (k + 1))) : p = q := by
  rw [← List.take_append_drop (16 * k) p, ← List.take_append_drop (16 * k) q, h1,
    ← List.take_append_drop 16 (p.drop (16 * k)), ← List.take_append_drop 16 (q.drop (16 * k)), h2,
    List.drop_drop, List.drop_drop, show 16 * k + 16 = 16 * (k + 1) by omega, h3]

/-- For a block function injective on blocks, a `kCtsPadding` call's output determines a
plaintext of at least a block among those of its length. -/
lemma cts_injective
    (hE : ∀ a b, a.length = 16 → b.length = 16 → E.encrypt a = E.encrypt b → a = b)
    {iv : List Byte} (hiv : iv.length = 16) {p q c : List Byte} {size₁ size₂ : Nat}
    {s₁ s₂ : AesCbcEncryptor} (hpq : p.length = q.length) (h16 : 16 ≤ p.length)
    (hp : (⟨.kCtsPadding, iv⟩ : AesCbcEncryptor).cryptInternal E p size₁ = some (c, s₁))
    (hq : (⟨.kCtsPadding, iv⟩ : AesCbcEncryptor).cryptInternal E q size₂ = some (c, s₂)) :
    p = q := by
  have fits : ∀ {x : List Byte} {size : Nat} {t : AesCbcEncryptor},
      (⟨.kCtsPadding, iv⟩ : AesCbcEncryptor).cryptInternal E x size = some (c, t) →
      x.length ≤ size := fun {x size t} h => by
    by_contra hlt
    rw [AesCbcEncryptor.cryptInternal_of_lt E
      (by simp [AesCbcEncryptor.numPaddingBytes]; omega)] at h
    cases h
  by_cases hr : p.length % 16 = 0
  · rw [AesCbcEncryptor.cryptInternal_kCtsPadding_of_mod_eq_zero E rfl h16 hr (fits hp)] at hp
    rw [AesCbcEncryptor.cryptInternal_kCtsPadding_of_mod_eq_zero E rfl (hpq ▸ h16) (hpq ▸ hr)
      (fits hq), ← hpq] at hq
    have hc := (Prod.mk.inj (Option.some.inj hp)).1.trans (Prod.mk.inj (Option.some.inj hq)).1.symm
    have h := cbcBlocks_injective E hE _ p q iv (by omega) (by omega) hiv hc
    rwa [List.take_of_length_le (by omega), List.take_of_length_le (by omega)] at h
  · obtain ⟨k, hk⟩ : ∃ k, p.length / 16 = k + 1 := ⟨p.length / 16 - 1, by omega⟩
    obtain ⟨t₁, ht₁⟩ := cryptInternal_kCtsPadding_blocks E (s := ⟨.kCtsPadding, iv⟩) rfl k hk hr
      (fits hp)
    obtain ⟨t₂, ht₂⟩ := cryptInternal_kCtsPadding_blocks E (s := ⟨.kCtsPadding, iv⟩) rfl k
      (hpq ▸ hk) (hpq ▸ hr) (fits hq)
    rw [ht₁] at hp
    rw [ht₂, ← hpq] at hq
    have hc := (Prod.mk.inj (Option.some.inj hp)).1.trans (Prod.mk.inj (Option.some.inj hq)).1.symm
    obtain ⟨hAR, hT⟩ := List.append_inj hc (by simp)
    obtain ⟨hA, hR⟩ := List.append_inj hAR (by simp)
    have hfront := cbcBlocks_injective E hE k p q iv (by omega) (by omega) hiv hA
    have hv : (cbcBlocks E k p iv).2 = (cbcBlocks E k q iv).2 := by
      rw [← cbcBlocks_take E k p iv (by omega), ← cbcBlocks_take E k q iv (by omega), hfront]
    rw [hv] at hR hT
    obtain ⟨hd, hb⟩ := zero_pad_chain_injective E hE (by simp; omega) (by simp; omega)
      (by omega) (by simp) (by simp) hR hT
    have hlast : ∀ x : List Byte, x.length = p.length →
        ((x.drop (16 * k)).take 16).length = 16 := fun x hx => by
      simp only [List.length_take, List.length_drop]; omega
    have hchain := length_cbcBlocks_snd E k q iv hiv
    have hblk := hE _ _ (by rw [length_xorBytes, hlast p rfl, hchain]; rfl)
      (by rw [length_xorBytes, hlast q hpq.symm, hchain]; rfl) hb
    exact eq_of_block_parts k hfront (xorBytes_left_injective ((hlast p rfl).trans hchain.symm)
      ((hlast q hpq.symm).trans hchain.symm) hblk) hd

/-! #### Decryption -/

/-- Modelled from the spec: ciphertext-stealing decryption under `D`. Less than a block passes
through and whole blocks are CBC; otherwise the block before the residual is decrypted first and
its last bytes complete the stolen block. -/
def ctsDecrypt (D : List Byte → List Byte) (iv c : List Byte) : List Byte :=
  if c.length < 16 then c
  else if c.length % 16 = 0 then cbcDecrypt D iv c
  else
    let k := c.length / 16 - 1
    let front := c.take (16 * k)
    let stolen := D ((c.drop (16 * k)).take 16)
    let tail := c.drop (16 * (k + 1))
    cbcDecryptBlocks D k front iv ++
      xorBytes (D (tail ++ stolen.drop tail.length)) ((iv ++ front).drop (16 * k)) ++
      xorBytes (stolen.take tail.length) tail

lemma ctsDecrypt_steal (D : List Byte → List Byte) (iv front last tail : List Byte) (k : Nat)
    (hfront : front.length = 16 * k) (hlast : last.length = 16) (htail : 0 < tail.length)
    (htail16 : tail.length < 16) :
    ctsDecrypt D iv (front ++ last ++ tail) =
      cbcDecryptBlocks D k front iv ++
        xorBytes (D (tail ++ (D last).drop tail.length)) ((iv ++ front).drop (16 * k)) ++
        xorBytes ((D last).take tail.length) tail := by
  have hlen : (front ++ last ++ tail).length = 16 * (k + 1) + tail.length := by simp; omega
  have hd : (front ++ last ++ tail).drop (16 * (k + 1)) = tail :=
    List.drop_left' (by simp; omega)
  rw [List.append_assoc] at hd ⊢
  simp only [ctsDecrypt]
  rw [if_neg (by simp; omega), if_neg (by simp; omega),
    show (front ++ (last ++ tail)).length / 16 - 1 = k by simp; omega, hd,
    List.take_left' hfront, List.drop_left' hfront, List.take_left' hlast]

lemma ctsDecrypt_cbcBlocks (D : List Byte → List Byte)
    (hD : ∀ b, b.length = 16 → D (E.encrypt b) = b) {iv p : List Byte} (hiv : iv.length = 16)
    (h16 : 16 ≤ p.length) (hr : p.length % 16 = 0) :
    ctsDecrypt D iv (cbcBlocks E (p.length / 16) p iv).1 = p := by
  have hlen : (cbcBlocks E (p.length / 16) p iv).1.length = p.length := by
    rw [length_cbcBlocks]; omega
  rw [ctsDecrypt, if_neg (by omega), if_pos (by omega), cbcDecrypt, hlen,
    cbcDecryptBlocks_cbcBlocks E D hD _ _ _ (by omega) hiv, List.take_of_length_le (by omega)]

/-- Stealing: the stolen block decrypts to the residual XORed with the head of the last
ciphertext block `b`, and its tail completes `b`. -/
lemma ctsDecrypt_steal_cbcBlocks (D : List Byte → List Byte)
    (hD : ∀ b, b.length = 16 → D (E.encrypt b) = b) {iv p : List Byte} (hiv : iv.length = 16)
    (k : Nat) (hk : p.length / 16 = k + 1) (hr : p.length % 16 ≠ 0) :
    ctsDecrypt D iv ((cbcBlocks E k p iv).1 ++
      E.encrypt (xorBytes (p.drop (16 * (k + 1)) ++ List.replicate (16 - p.length % 16) 0)
        (E.encrypt (xorBytes ((p.drop (16 * k)).take 16) (cbcBlocks E k p iv).2))) ++
      (E.encrypt (xorBytes ((p.drop (16 * k)).take 16)
        (cbcBlocks E k p iv).2)).take (p.length % 16)) = p := by
  have hblk : ((p.drop (16 * k)).take 16).length = 16 := by simp; omega
  have hchain := length_cbcBlocks_snd E k p iv hiv
  generalize hb : E.encrypt (xorBytes ((p.drop (16 * k)).take 16) (cbcBlocks E k p iv).2) = b
  have hb16 : b.length = 16 := hb ▸ E.length_encrypt _
  have hres : (p.drop (16 * (k + 1))).length = p.length % 16 := by simp; omega
  have hstolen : D (E.encrypt (xorBytes (p.drop (16 * (k + 1)) ++
      List.replicate (16 - p.length % 16) 0) b)) =
        xorBytes (p.drop (16 * (k + 1))) (b.take (p.length % 16)) ++ b.drop (p.length % 16) := by
    have e := xorBytes_zero_pad (d := p.drop (16 * (k + 1))) (b := b) (by omega)
    rw [hb16, hres] at e
    rw [hD _ (by simp [hres, hb16]; omega), e]
  have hx : (xorBytes (p.drop (16 * (k + 1))) (b.take (p.length % 16))).length =
      p.length % 16 := by simp [hres, hb16]; omega
  rw [ctsDecrypt_steal D iv _ _ _ k (length_cbcBlocks E k p iv) (E.length_encrypt _)
      (by simp [hb16]; omega) (by simp; omega), hstolen, List.length_take, hb16,
    Nat.min_eq_left (by omega), List.drop_left' hx, List.take_left' hx, List.take_append_drop,
    ← hb, hD _ (by simp [hblk, hchain]), drop_append_cbcBlocks E k p iv hiv,
    xorBytes_xorBytes_cancel (by simp [hblk, hchain]),
    xorBytes_xorBytes_cancel (by simp [hres]; omega),
    cbcDecryptBlocks_cbcBlocks E D hD _ _ _ (by omega) hiv, List.append_assoc,
    show 16 * (k + 1) = 16 * k + 16 by omega, ← List.drop_drop, List.take_append_drop,
    List.take_append_drop]

lemma ctsDecrypt_of_cryptInternal (D : List Byte → List Byte)
    (hD : ∀ b, b.length = 16 → D (E.encrypt b) = b) {s s' : AesCbcEncryptor}
    (hs : s.paddingScheme = .kCtsPadding) (hiv : s.internalIv.length = 16) {p c : List Byte}
    {size : Nat} (h : s.cryptInternal E p size = some (c, s')) :
    ctsDecrypt D s.internalIv c = p := by
  have hsize : p.length ≤ size := by
    simpa [AesCbcEncryptor.numPaddingBytes, hs] using AesCbcEncryptor.le_of_cryptInternal E h
  by_cases hlt : p.length < 16
  · rw [AesCbcEncryptor.cryptInternal_kCtsPadding_of_lt E hs hlt hsize] at h
    cases h
    exact if_pos hlt
  by_cases hr : p.length % 16 = 0
  · rw [AesCbcEncryptor.cryptInternal_kCtsPadding_of_mod_eq_zero E hs (by omega) hr hsize] at h
    cases h
    exact ctsDecrypt_cbcBlocks E D hD hiv (by omega) hr
  · obtain ⟨k, hk⟩ : ∃ k, p.length / 16 = k + 1 := ⟨p.length / 16 - 1, by omega⟩
    obtain ⟨t, ht⟩ := cryptInternal_kCtsPadding_blocks E hs k hk hr hsize
    rw [ht] at h
    cases h
    exact ctsDecrypt_steal_cbcBlocks E D hD hiv k hk hr

end Cts

/-- With `kCtsPadding` and a 16-byte chaining block, a call with room writes as many bytes as the
plaintext, a plaintext under a block unchanged; for an injective block function equal outputs of
one length mean equal plaintexts, and ciphertext-stealing decryption recovers the plaintext. -/
theorem cbc_cts_crypt (E : BlockCipher) (iv : List Byte) (hiv : iv.length = 16) :
    (∀ (p : List Byte) (size : Nat), p.length ≤ size →
      ∃ c s', (⟨.kCtsPadding, iv⟩ : AesCbcEncryptor).cryptInternal E p size = some (c, s') ∧
        c.length = p.length) ∧
    (∀ (p : List Byte) (size : Nat), p.length < 16 → p.length ≤ size →
      ∃ s', (⟨.kCtsPadding, iv⟩ : AesCbcEncryptor).cryptInternal E p size = some (p, s')) ∧
    ((∀ a b, a.length = 16 → b.length = 16 → E.encrypt a = E.encrypt b → a = b) →
      ∀ (p q c : List Byte) (size₁ size₂ : Nat) (s₁ s₂ : AesCbcEncryptor),
        p.length = q.length → 16 ≤ p.length →
        (⟨.kCtsPadding, iv⟩ : AesCbcEncryptor).cryptInternal E p size₁ = some (c, s₁) →
        (⟨.kCtsPadding, iv⟩ : AesCbcEncryptor).cryptInternal E q size₂ = some (c, s₂) →
        p = q) ∧
    ∀ D : List Byte → List Byte, (∀ b, b.length = 16 → D (E.encrypt b) = b) →
      ∀ (p c : List Byte) (size : Nat) (s' : AesCbcEncryptor),
        (⟨.kCtsPadding, iv⟩ : AesCbcEncryptor).cryptInternal E p size = some (c, s') →
        ctsDecrypt D iv c = p := by
  refine ⟨fun p size hsize => ?_,
    fun p size hlt hsize => ⟨_, AesCbcEncryptor.cryptInternal_kCtsPadding_of_lt E rfl hlt hsize⟩,
    fun hE p q c size₁ size₂ s₁ s₂ hpq h16 hp hq => cts_injective E hE hiv hpq h16 hp hq,
    fun D hD p c size s' h => ctsDecrypt_of_cryptInternal E D hD rfl hiv h⟩
  by_cases hlt : p.length < 16
  · exact ⟨p, _, AesCbcEncryptor.cryptInternal_kCtsPadding_of_lt E rfl hlt hsize, rfl⟩
  by_cases hr : p.length % 16 = 0
  · refine ⟨_, _, AesCbcEncryptor.cryptInternal_kCtsPadding_of_mod_eq_zero E rfl (by omega) hr
      hsize, ?_⟩
    simp only [length_cbcBlocks]
    omega
  · obtain ⟨k, hk⟩ : ∃ k, p.length / 16 = k + 1 := ⟨p.length / 16 - 1, by omega⟩
    obtain ⟨t, ht⟩ := cryptInternal_kCtsPadding_blocks E (s := ⟨.kCtsPadding, iv⟩) rfl k hk hr hsize
    refine ⟨_, t, ht, ?_⟩
    simp only [List.length_append, length_cbcBlocks, BlockCipher.length_encrypt, List.length_take]
    omega

/-- Twenty bytes, a whole block and four more, encrypted and decrypted. -/
theorem cbc_cts_crypt_twenty :
    (List.replicate 16 (0#8)).length = 16 ∧
      (∀ b : List Byte, b.length = 16 → id (resize b 16 0) = b) ∧
      ∃ c s', (⟨.kCtsPadding, List.replicate 16 0⟩ : AesCbcEncryptor).cryptInternal
          ⟨fun b => resize b 16 0, fun b => length_resize b 16 0⟩ (List.replicate 20 1) 20 =
            some (c, s') ∧
        c.length = 20 ∧ ctsDecrypt id (List.replicate 16 0) c = List.replicate 20 1 := by
  have hD : ∀ b : List Byte, b.length = 16 → id (resize b 16 0) = b :=
    fun b hb => resize_of_length_eq b 16 0 hb
  have hcts := cbc_cts_crypt ⟨fun b => resize b 16 0, fun b => length_resize b 16 0⟩
    (List.replicate 16 0) rfl
  obtain ⟨c, s', h, hlen⟩ := hcts.1 (List.replicate 20 1) 20 (by decide)
  exact ⟨rfl, hD, c, s', h, hlen, hcts.2.2.2 id hD _ _ _ _ h⟩

/-- Ciphertext-stealing decryption recovers every plaintext a `kCtsPadding` call encrypts. -/
theorem cbc_cts_round_trip (E : BlockCipher) (D : List Byte → List Byte)
    (hD : ∀ b, b.length = 16 → D (E.encrypt b) = b) (iv : List Byte) (hiv : iv.length = 16)
    (p : List Byte) (size : Nat) (hsize : p.length ≤ size) :
    ∃ c s', (⟨.kCtsPadding, iv⟩ : AesCbcEncryptor).cryptInternal E p size = some (c, s') ∧
      ctsDecrypt D iv c = p := by
  obtain ⟨c, s', h⟩ := AesCbcEncryptor.exists_cryptInternal E (s := ⟨.kCtsPadding, iv⟩)
    (by simpa [AesCbcEncryptor.numPaddingBytes] using hsize)
  exact ⟨c, s', h, ctsDecrypt_of_cryptInternal E D hD rfl hiv h⟩

/-- Twenty bytes, a whole block and four more. -/
theorem cbc_cts_round_trip_twenty :
    (∀ b : List Byte, b.length = 16 → resize b 16 0 = b) ∧ (List.replicate 16 (0#8)).length = 16 ∧
      (List.replicate 20 (1#8)).length ≤ 20 ∧
      ∃ c s', (⟨.kCtsPadding, List.replicate 16 0⟩ : AesCbcEncryptor).cryptInternal
        ⟨fun b => resize b 16 0, fun b => length_resize b 16 0⟩ (List.replicate 20 1) 20 =
          some (c, s') ∧ ctsDecrypt id (List.replicate 16 0) c = List.replicate 20 1 :=
  ⟨fun b hb => resize_of_length_eq b 16 0 hb, rfl, le_refl 20,
    cbc_cts_round_trip ⟨fun b => resize b 16 0, fun b => length_resize b 16 0⟩ id
      (fun b hb => resize_of_length_eq b 16 0 hb) (List.replicate 16 0) rfl _ 20 (le_refl 20)⟩

end EdashPackager.Media
