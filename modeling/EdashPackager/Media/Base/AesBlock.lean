import EdashPackager.Media.Base.Bytes

/-!
# The OpenSSL AES calls

The encryptors call two OpenSSL functions. `AES_encrypt` applies the block cipher of the
installed key to one 16-byte block; the cipher itself is not modelled, and every statement
holds for an arbitrary block function. `AES_cbc_encrypt` chains that function over whole
blocks and leaves the last ciphertext block in its IV buffer. Standard CBC encryption and
decryption of a buffer's whole blocks are given beside them, to state what the encryptors
compute.
-/

namespace EdashPackager.Media

/-- The block function `AES_encrypt` computes for one expanded key: 16 bytes out. -/
structure BlockCipher where
  encrypt : List Byte → List Byte
  length_encrypt : ∀ b, (encrypt b).length = 16

attribute [simp] BlockCipher.length_encrypt

/-- CBC over `n` whole blocks of `input` from the chaining block `ivec`: the ciphertext and
the last ciphertext block (`ivec` itself when `n = 0`). -/
def cbcBlocks (E : BlockCipher) : Nat → List Byte → List Byte → List Byte × List Byte
  | 0, _, ivec => ([], ivec)
  | n + 1, input, ivec =>
    let c := E.encrypt (xorBytes (input.take 16) ivec)
    let r := cbcBlocks E n (input.drop 16) c
    (c ++ r.1, r.2)

/-- `AES_cbc_encrypt(in, out, length, key, ivec, AES_ENCRYPT)`, called by the packager with a
multiple of 16 for `length`: the bytes written to `out` and the new contents of `ivec`. -/
def aesCbcEncrypt (E : BlockCipher) (input : List Byte) (length : Nat) (ivec : List Byte) :
    List Byte × List Byte :=
  cbcBlocks E (length / 16) input ivec

/-- Modelled from the spec: CBC encryption of the whole blocks of `x` under `E` and `iv`. -/
def cbcEncrypt (E : BlockCipher) (iv x : List Byte) : List Byte :=
  (cbcBlocks E (x.length / 16) x iv).1

/-- Modelled from the spec: CBC decryption of `n` blocks of `c` from the chaining block `prev`. -/
def cbcDecryptBlocks (D : List Byte → List Byte) : Nat → List Byte → List Byte → List Byte
  | 0, _, _ => []
  | n + 1, c, prev => xorBytes (D (c.take 16)) prev ++ cbcDecryptBlocks D n (c.drop 16) (c.take 16)

/-- Modelled from the spec: CBC decryption of the whole blocks of `c` under `D` and `iv`. -/
def cbcDecrypt (D : List Byte → List Byte) (iv c : List Byte) : List Byte :=
  cbcDecryptBlocks D (c.length / 16) c iv

section Cbc

variable (E : BlockCipher)

@[simp] lemma cbcBlocks_zero (input ivec : List Byte) : cbcBlocks E 0 input ivec = ([], ivec) :=
  rfl

lemma cbcBlocks_succ (n : Nat) (input ivec : List Byte) :
    cbcBlocks E (n + 1) input ivec =
      (E.encrypt (xorBytes (input.take 16) ivec) ++
          (cbcBlocks E n (input.drop 16) (E.encrypt (xorBytes (input.take 16) ivec))).1,
        (cbcBlocks E n (input.drop 16) (E.encrypt (xorBytes (input.take 16) ivec))).2) := rfl

@[simp] lemma length_cbcBlocks (n : Nat) (input ivec : List Byte) :
    (cbcBlocks E n input ivec).1.length = 16 * n := by
  induction n generalizing input ivec with
  | zero => rfl
  | succ n ih => simp [cbcBlocks_succ, ih]; omega

lemma cbcBlocks_add (a b : Nat) (input ivec : List Byte) :
    cbcBlocks E (a + b) input ivec =
      ((cbcBlocks E a input ivec).1 ++
          (cbcBlocks E b (input.drop (16 * a)) (cbcBlocks E a input ivec).2).1,
        (cbcBlocks E b (input.drop (16 * a)) (cbcBlocks E a input ivec).2).2) := by
  induction a generalizing input ivec with
  | zero => simp
  | succ a ih =>
    rw [Nat.add_right_comm, cbcBlocks_succ, ih, cbcBlocks_succ]
    simp only [List.drop_drop, List.append_assoc, show 16 + 16 * a = 16 * (a + 1) by omega]

/-- CBC over `n` blocks reads only the first `16 * n` bytes. -/
lemma cbcBlocks_append (n : Nat) (x y ivec : List Byte) (hx : x.length = 16 * n) :
    cbcBlocks E n (x ++ y) ivec = cbcBlocks E n x ivec := by
  induction n generalizing x ivec with
  | zero => rfl
  | succ n ih =>
    have ht : (x ++ y).take 16 = x.take 16 := List.take_append_of_le_length (by omega)
    have hd : (x ++ y).drop 16 = x.drop 16 ++ y := List.drop_append_of_le_length (by omega)
    rw [cbcBlocks_succ, cbcBlocks_succ, ht, hd, ih _ _ (by simp; omega)]

lemma cbcBlocks_take (n : Nat) (x ivec : List Byte) (hx : 16 * n ≤ x.length) :
    cbcBlocks E n (x.take (16 * n)) ivec = cbcBlocks E n x ivec := by
  conv_rhs => rw [← List.take_append_drop (16 * n) x]
  exact (cbcBlocks_append E n _ _ ivec (by simp; omega)).symm

lemma cbcBlocks_one (x ivec : List Byte) :
    cbcBlocks E 1 x ivec = (E.encrypt (xorBytes (x.take 16) ivec),
      E.encrypt (xorBytes (x.take 16) ivec)) := by
  simp [cbcBlocks_succ]

/-- After at least one block the chaining block is the last ciphertext block. -/
lemma cbcBlocks_snd (n : Nat) (input ivec : List Byte) (hn : 0 < n) :
    (cbcBlocks E n input ivec).2 = (cbcBlocks E n input ivec).1.drop (16 * (n - 1)) := by
  obtain ⟨m, rfl⟩ : ∃ m, n = m + 1 := ⟨n - 1, by omega⟩
  rw [cbcBlocks_add, Nat.add_sub_cancel]
  simp only [cbcBlocks_succ, cbcBlocks_zero, List.append_nil]
  rw [List.drop_left' (by simp)]

@[simp] lemma length_cbcBlocks_snd (n : Nat) (input ivec : List Byte) (hiv : ivec.length = 16) :
    (cbcBlocks E n input ivec).2.length = 16 := by
  cases n with
  | zero => exact hiv
  | succ n => rw [cbcBlocks_snd E _ _ _ (by omega)]; simp; omega

/-- The chaining block after `n` blocks ends the IV followed by the ciphertext. -/
lemma drop_append_cbcBlocks (n : Nat) (input ivec : List Byte) (hiv : ivec.length = 16) :
    (ivec ++ (cbcBlocks E n input ivec).1).drop (16 * n) = (cbcBlocks E n input ivec).2 := by
  cases n with
  | zero => simp
  | succ n =>
    rw [cbcBlocks_snd E _ _ _ (Nat.succ_pos n), List.drop_append_eq_append_drop, hiv,
      List.drop_eq_nil_of_le (by omega), List.nil_append]
    congr 1

/-- CBC decryption of `n` blocks reads only the first `16 * n` bytes. -/
lemma cbcDecryptBlocks_append (D : List Byte → List Byte) (n : Nat) (x y prev : List Byte)
    (hx : x.length = 16 * n) : cbcDecryptBlocks D n (x ++ y) prev = cbcDecryptBlocks D n x prev := by
  induction n generalizing x prev with
  | zero => rfl
  | succ n ih =>
    have ht : (x ++ y).take 16 = x.take 16 := List.take_append_of_le_length (by omega)
    have hd : (x ++ y).drop 16 = x.drop 16 ++ y := List.drop_append_of_le_length (by omega)
    rw [cbcDecryptBlocks, cbcDecryptBlocks, ht, hd, ih _ _ (by simp; omega)]

/-- CBC decryption with a left inverse of the block function undoes CBC encryption. -/
lemma cbcDecryptBlocks_cbcBlocks (D : List Byte → List Byte)
    (hD : ∀ b, b.length = 16 → D (E.encrypt b) = b) (n : Nat) (x ivec : List Byte)
    (hx : 16 * n ≤ x.length) (hiv : ivec.length = 16) :
    cbcDecryptBlocks D n (cbcBlocks E n x ivec).1 ivec = x.take (16 * n) := by
  induction n generalizing x ivec with
  | zero => rfl
  | succ n ih =>
    have hc := E.length_encrypt (xorBytes (x.take 16) ivec)
    have hb : (xorBytes (x.take 16) ivec).length = 16 := by simp [hiv]; omega
    rw [cbcBlocks_succ, cbcDecryptBlocks, List.take_left' hc, List.drop_left' hc, hD _ hb,
      xorBytes_xorBytes_cancel (by simp [hiv]; omega), ih _ _ (by simp; omega) hc,
      show 16 * (n + 1) = 16 + 16 * n by omega, List.take_add]

/-- With a block function injective on blocks, CBC of whole blocks is injective. -/
lemma cbcBlocks_injective
    (hE : ∀ a b, a.length = 16 → b.length = 16 → E.encrypt a = E.encrypt b → a = b)
    (n : Nat) (x y ivec : List Byte) (hx : 16 * n ≤ x.length) (hy : 16 * n ≤ y.length)
    (hiv : ivec.length = 16) (h : (cbcBlocks E n x ivec).1 = (cbcBlocks E n y ivec).1) :
    x.take (16 * n) = y.take (16 * n) := by
  induction n generalizing x y ivec with
  | zero => rfl
  | succ n ih =>
    rw [cbcBlocks_succ, cbcBlocks_succ] at h
    obtain ⟨hc, hr⟩ := List.append_inj h (by simp)
    have hxb : (x.take 16).length = 16 := by simp; omega
    have hyb : (y.take 16).length = 16 := by simp; omega
    have hfirst : x.take 16 = y.take 16 :=
      xorBytes_left_injective (hxb.trans hiv.symm) (hyb.trans hiv.symm)
        (hE _ _ (by simp [hxb, hiv]) (by simp [hyb, hiv]) hc)
    rw [← hc] at hr
    rw [show 16 * (n + 1) = 16 + 16 * n by omega, List.take_add, List.take_add, hfirst,
      ih _ _ _ (by simp; omega) (by simp; omega) (by simp) hr]

end Cbc

end EdashPackager.Media
