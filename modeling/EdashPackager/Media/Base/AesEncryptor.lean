import EdashPackager.Media.Base.AesBlock

/-!
# AES encryptors: shared parts

The helpers of `aes_encryptor.cc`: `Increment64`, the 64-bit big-endian block counter of
counter mode, and `IsKeySizeValidForAes` with its one caller `InitializeWithIv`. An encryptor
object is driven by calls to `CryptInternal`, one buffer at a time; `cryptCalls` makes such
calls in turn, threading the object's state, so that the counter-mode and CBC files can state
what a whole sequence of calls computes.
-/

namespace EdashPackager.Media

/-! ### `Increment64` -/

/-- The loop of `Increment64` from `i = k - 1` down to `0`, for the counter at offset `p` of
`buf`: `++counter[i]`, returning `false` at the first byte that does not wrap to zero. -/
def increment64Loop (buf : List Byte) (p : Nat) : Nat → List Byte × Bool
  | 0 => (buf, true)
  | i + 1 =>
    let b := buf.getD (p + i) 0 + 1
    if b ≠ 0 then (buf.set (p + i) b, false) else increment64Loop (buf.set (p + i) b) p i

/-- `Increment64(counter)` for `counter = &buf[p]`: increment the 8-byte counter by one;
`true` if it overflowed. -/
def increment64 (buf : List Byte) (p : Nat) : List Byte × Bool := increment64Loop buf p 8

@[simp] lemma length_increment64Loop (buf : List Byte) (p n : Nat) :
    (increment64Loop buf p n).1.length = buf.length := by
  induction n generalizing buf with
  | zero => rfl
  | succ n ih =>
    simp only [increment64Loop]
    split_ifs <;> simp [ih]

lemma byte_add_one_toNat (b : Byte) : (b + 1).toNat = (b.toNat + 1) % 256 := by
  simp [BitVec.toNat_add]

lemma byte_add_one_eq_zero (b : Byte) : b + 1 = 0 ↔ b.toNat = 255 := by
  have hb : b.toNat < 256 := b.isLt
  rw [BitVec.toNat_eq, byte_add_one_toNat]
  show (b.toNat + 1) % 256 = 0 ↔ _
  omega

/-- Over the `c.length` bytes of `c`, the loop leaves the big-endian successor of `c` modulo
`256 ^ c.length` in place of `c`, every other byte of the buffer as it was, and returns the
carry out of the top byte. -/
lemma increment64Loop_eq (pre c post : List Byte) :
    increment64Loop (pre ++ c ++ post) pre.length c.length =
      (pre ++ toBE c.length ((ofBE c + 1) % 256 ^ c.length) ++ post,
        decide (ofBE c = 256 ^ c.length - 1)) := by
  induction c using List.reverseRecOn generalizing post with
  | nil => simp [increment64Loop]
  | append_singleton c b ih =>
    have hc := ofBE_lt c
    have hb : b.toNat < 256 := b.isLt
    have hpow : 256 ^ (c.length + 1) = 256 ^ c.length * 256 := Nat.pow_succ _ _
    have hbuf : pre ++ (c ++ [b]) ++ post = (pre ++ c) ++ b :: post := by simp
    have hidx : pre.length + c.length = (pre ++ c).length := by simp
    simp only [List.length_append, List.length_singleton, increment64Loop, ofBE_append_singleton]
    rw [hbuf, hidx, getD_middle, set_middle]
    by_cases hwrap : b + 1 = 0
    · have h255 := (byte_add_one_eq_zero b).mp hwrap
      have hmod : (ofBE c * 256 + b.toNat + 1) % 256 ^ (c.length + 1) =
          (ofBE c + 1) % 256 ^ c.length * 256 := by
        rw [hpow, show ofBE c * 256 + b.toNat + 1 = (ofBE c + 1) * 256 by omega,
          Nat.mul_mod_mul_right]
      have hcarry : (ofBE c * 256 + b.toNat = 256 ^ (c.length + 1) - 1) ↔
          ofBE c = 256 ^ c.length - 1 := by
        rw [hpow]; omega
      rw [if_neg (not_not.mpr hwrap), hwrap, show pre ++ c ++ 0 :: post = pre ++ c ++ ([0] ++ post)
        from rfl, ih, hmod, toBE_mul_256]
      simp only [hcarry, List.append_assoc, List.singleton_append]
      rfl
    · have hlt : b.toNat < 255 := by
        have := (byte_add_one_eq_zero b).not.mp hwrap
        omega
      have hval : (ofBE c * 256 + b.toNat + 1) % 256 ^ (c.length + 1) =
          ofBE c * 256 + (b + 1).toNat := by
        rw [byte_add_one_toNat, Nat.mod_eq_of_lt (by omega : b.toNat + 1 < 256),
          Nat.mod_eq_of_lt (by rw [hpow]; omega)]
        omega
      have hno : ¬(ofBE c * 256 + b.toNat = 256 ^ (c.length + 1) - 1) := by rw [hpow]; omega
      have hbytes : toBE (c.length + 1) (ofBE c * 256 + (b + 1).toNat) = c ++ [b + 1] := by
        simpa using toBE_ofBE (c ++ [b + 1])
      rw [if_pos hwrap, hval, hbytes]
      simp [hno]

/-- `Increment64` on an 8-byte counter inside a buffer: the counter becomes the big-endian
encoding of its value plus one modulo `2 ^ 64`, no byte outside it changes, and the result is
`true` exactly when the counter held `2 ^ 64 - 1`. -/
theorem increment64_eq (pre c post : List Byte) (hc : c.length = 8) :
    increment64 (pre ++ c ++ post) pre.length =
      (pre ++ toBE 8 ((ofBE c + 1) % 2 ^ 64) ++ post, decide (ofBE c = 2 ^ 64 - 1)) := by
  have h := increment64Loop_eq pre c post
  rw [hc] at h
  exact h

theorem increment64_eq_at_wrap :
    (List.replicate 8 (255#8)).length = 8 ∧
      increment64 ([1#8] ++ List.replicate 8 (255#8) ++ [2#8]) [1#8].length =
        ([1#8] ++ toBE 8 ((ofBE (List.replicate 8 (255#8)) + 1) % 2 ^ 64) ++ [2#8],
          decide (ofBE (List.replicate 8 (255#8)) = 2 ^ 64 - 1)) :=
  ⟨rfl, increment64_eq [1#8] (List.replicate 8 (255#8)) [2#8] rfl⟩

/-! ### Keys -/

/-- `IsKeySizeValidForAes`: AES defines three key sizes, 128, 192 and 256 bits. -/
def isKeySizeValidForAes (keySize : Nat) : Bool :=
  keySize == 16 || keySize == 24 || keySize == 32

/-- `AesEncryptor::InitializeWithIv(key, iv)`: a key of a size AES does not define fails before
anything is set; otherwise the key schedule is set and the base class's `SetIv` gives the result.
Both, not among the sources, are parameters. -/
def initializeWithIv {σ : Type} (setEncryptKey : List Byte → σ → σ)
    (setIv : List Byte → σ → Bool × σ) (key iv : List Byte) (s : σ) : Bool × σ :=
  if isKeySizeValidForAes key.length then setIv iv (setEncryptKey key s) else (false, s)

lemma isKeySizeValidForAes_iff (keySize : Nat) :
    isKeySizeValidForAes keySize ↔
      keySize * 8 = 128 ∨ keySize * 8 = 192 ∨ keySize * 8 = 256 := by
  simp only [isKeySizeValidForAes, Bool.or_eq_true, beq_iff_eq]
  omega

/-- `InitializeWithIv` hands a key of 128, 192 or 256 bits to `SetIv` on the keyed encryptor,
and fails on a key of any other size, leaving the encryptor as it was. -/
lemma initializeWithIv_eq {σ : Type} (setEncryptKey : List Byte → σ → σ)
    (setIv : List Byte → σ → Bool × σ) (key iv : List Byte) (s : σ) :
    initializeWithIv setEncryptKey setIv key iv s =
      if key.length * 8 = 128 ∨ key.length * 8 = 192 ∨ key.length * 8 = 256 then
        setIv iv (setEncryptKey key s)
      else (false, s) := by
  simp only [initializeWithIv, ← isKeySizeValidForAes_iff]

/-! ### Calls on one encryptor -/

/-- `CryptInternal` called on each buffer in turn, each call given the room its output buffer
has: the outputs, and the encryptor after the last call; `none` once a call is refused. -/
def cryptCalls {σ : Type} (cryptInternal : σ → List Byte → Nat → Option (List Byte × σ)) :
    σ → List (List Byte × Nat) → Option (List (List Byte) × σ)
  | s, [] => some ([], s)
  | s, (p, size) :: calls =>
    match cryptInternal s p size with
    | none => none
    | some (c, s') => (cryptCalls cryptInternal s' calls).map fun r => (c :: r.1, r.2)

/-- The plaintext bytes a sequence of calls hands to `CryptInternal`. -/
def callBytes (calls : List (List Byte × Nat)) : Nat := (calls.map fun c => c.1.length).sum

@[simp] lemma callBytes_nil : callBytes [] = 0 := rfl

@[simp] lemma callBytes_cons (p : List Byte) (size : Nat) (calls : List (List Byte × Nat)) :
    callBytes ((p, size) :: calls) = p.length + callBytes calls := by
  simp [callBytes]

section Calls

variable {σ : Type} (cryptInternal : σ → List Byte → Nat → Option (List Byte × σ))

@[simp] lemma cryptCalls_nil (s : σ) : cryptCalls cryptInternal s [] = some ([], s) := rfl

lemma cryptCalls_cons_of_eq {s s' : σ} {p c : List Byte} {size : Nat}
    (h : cryptInternal s p size = some (c, s')) (calls : List (List Byte × Nat)) :
    cryptCalls cryptInternal s ((p, size) :: calls) =
      (cryptCalls cryptInternal s' calls).map fun r => (c :: r.1, r.2) := by
  simp [cryptCalls, h]

lemma cryptCalls_cons_of_none {s : σ} {p : List Byte} {size : Nat}
    (h : cryptInternal s p size = none) (calls : List (List Byte × Nat)) :
    cryptCalls cryptInternal s ((p, size) :: calls) = none := by
  simp [cryptCalls, h]

end Calls

end EdashPackager.Media
