import Mathlib

/-!
# Byte buffers

The crypto code of the packager works on `std::vector<uint8_t>` and raw `uint8_t*` buffers.
Both are lists of bytes here, a byte being an 8-bit vector, and a vector of any element type
is a list. This file gives the vector operations the encryptors and the segmenter use:
`std::vector::resize`, reading and writing one position, byte-wise XOR, and the big-endian
reading of a block counter.
-/

namespace EdashPackager.Media

/-- An `uint8_t`. -/
abbrev Byte := BitVec 8

/-- `std::vector<T>::resize(n, value)`: the first `n` elements, padded with `value`. -/
def resize {α : Type} (v : List α) (n : Nat) (value : α) : List α :=
  v.take n ++ List.replicate (n - v.length) value

section Resize

variable {α : Type} (v : List α) (n : Nat) (value : α)

@[simp] lemma length_resize : (resize v n value).length = n := by
  simp only [resize, List.length_append, List.length_take, List.length_replicate]
  omega

lemma resize_of_length_eq (h : v.length = n) : resize v n value = v := by
  simp [resize, ← h]

lemma resize_append_replicate (h : v.length ≤ n) :
    resize v n value = v ++ List.replicate (n - v.length) value := by
  simp [resize, List.take_of_length_le h]

lemma resize_of_le (h : n ≤ v.length) : resize v n value = v.take n := by
  simp [resize, Nat.sub_eq_zero_of_le h]

end Resize

/-- Byte-wise XOR of two buffers, as far as the shorter one goes. -/
def xorBytes (a b : List Byte) : List Byte := List.zipWith (· ^^^ ·) a b

@[simp] lemma length_xorBytes (a b : List Byte) :
    (xorBytes a b).length = min a.length b.length := List.length_zipWith _ _ _

lemma xorBytes_xorBytes_cancel {a b : List Byte} (h : a.length = b.length) :
    xorBytes (xorBytes a b) b = a := by
  induction a generalizing b with
  | nil => rfl
  | cons x a ih =>
    cases b with
    | nil => simp at h
    | cons y b =>
      simp only [xorBytes, List.zipWith_cons_cons] at ih ⊢
      rw [ih (by simpa using h), BitVec.xor_assoc, BitVec.xor_self, BitVec.xor_zero]

lemma xorBytes_left_injective {a a' b : List Byte} (ha : a.length = b.length)
    (ha' : a'.length = b.length) (h : xorBytes a b = xorBytes a' b) : a = a' := by
  rw [← xorBytes_xorBytes_cancel ha, ← xorBytes_xorBytes_cancel ha', h]

lemma xorBytes_append {a c : List Byte} (b d : List Byte) (h : a.length = c.length) :
    xorBytes (a ++ b) (c ++ d) = xorBytes a c ++ xorBytes b d :=
  List.zipWith_append _ _ _ _ _ h

lemma xorBytes_replicate_zero (d : List Byte) : xorBytes (List.replicate d.length 0) d = d := by
  induction d with
  | nil => rfl
  | cons x d ih =>
    simp only [xorBytes, List.length_cons, List.replicate_succ, List.zipWith_cons_cons] at ih ⊢
    rw [ih]
    exact congrArg (· :: d) (BitVec.zero_xor)

/-- XOR with a zero-padded buffer leaves the bytes past its data as they were. -/
lemma xorBytes_zero_pad {d b : List Byte} (hd : d.length ≤ b.length) :
    xorBytes (d ++ List.replicate (b.length - d.length) 0) b =
      xorBytes d (b.take d.length) ++ b.drop d.length := by
  calc xorBytes (d ++ List.replicate (b.length - d.length) 0) b
      = xorBytes (d ++ List.replicate (b.drop d.length).length 0)
          (b.take d.length ++ b.drop d.length) := by rw [List.take_append_drop, List.length_drop]
    _ = xorBytes d (b.take d.length) ++ b.drop d.length := by
      rw [xorBytes_append _ _ (by simp; omega), xorBytes_replicate_zero]

/-! ### Big-endian numbers -/

/-- `n` as `w` big-endian bytes; bits above `8 * w` are dropped. -/
def toBE : Nat → Nat → List Byte
  | 0, _ => []
  | w + 1, n => toBE w (n / 256) ++ [BitVec.ofNat 8 n]

/-- The natural with the given big-endian bytes. -/
def ofBE (l : List Byte) : Nat := l.foldl (fun acc b => acc * 256 + b.toNat) 0

@[simp] lemma toBE_zero (n : Nat) : toBE 0 n = [] := rfl

lemma toBE_succ (w n : Nat) : toBE (w + 1) n = toBE w (n / 256) ++ [BitVec.ofNat 8 n] := rfl

@[simp] lemma ofBE_nil : ofBE [] = 0 := rfl

@[simp] lemma ofBE_append_singleton (l : List Byte) (b : Byte) :
    ofBE (l ++ [b]) = ofBE l * 256 + b.toNat := by
  simp [ofBE, List.foldl_append]

@[simp] lemma length_toBE (w n : Nat) : (toBE w n).length = w := by
  induction w generalizing n with
  | zero => rfl
  | succ w ih => simp [toBE_succ, ih]

lemma ofBE_lt (l : List Byte) : ofBE l < 256 ^ l.length := by
  induction l using List.reverseRecOn with
  | nil => simp
  | append_singleton l b ih =>
    have hb : b.toNat < 256 := b.isLt
    rw [ofBE_append_singleton, List.length_append, List.length_singleton, Nat.pow_succ]
    omega

lemma ofBE_toBE (w n : Nat) : ofBE (toBE w n) = n % 256 ^ w := by
  induction w generalizing n with
  | zero => simp [Nat.mod_one]
  | succ w ih =>
    have hsplit : n % 256 ^ (w + 1) = n % 256 + 256 * (n / 256 % 256 ^ w) := by
      rw [Nat.pow_succ', Nat.mod_mul]
    rw [toBE_succ, ofBE_append_singleton, ih, BitVec.toNat_ofNat, hsplit]
    omega

lemma toBE_ofBE (l : List Byte) : toBE l.length (ofBE l) = l := by
  induction l using List.reverseRecOn with
  | nil => rfl
  | append_singleton l b ih =>
    have hb : b.toNat < 256 := b.isLt
    have hdiv : (ofBE l * 256 + b.toNat) / 256 = ofBE l := by omega
    have hlow : BitVec.ofNat 8 (ofBE l * 256 + b.toNat) = b := by
      apply BitVec.eq_of_toNat_eq
      simp only [BitVec.toNat_ofNat]
      omega
    simp only [List.length_append, List.length_singleton, toBE_succ, ofBE_append_singleton, hdiv,
      hlow, ih]

lemma toBE_mul_256 (w y : Nat) : toBE (w + 1) (y * 256) = toBE w y ++ [0#8] := by
  have hlow : BitVec.ofNat 8 (y * 256) = 0#8 := by
    apply BitVec.eq_of_toNat_eq
    simp only [BitVec.toNat_ofNat, BitVec.toNat_ofNat]
    omega
  rw [toBE_succ, Nat.mul_div_cancel _ (by decide), hlow]

/-! ### Positions in a buffer -/

section Middle

variable {α : Type} (pre post : List α) (x y : α)

@[simp] lemma set_middle : (pre ++ x :: post).set pre.length y = pre ++ y :: post := by
  induction pre with
  | nil => rfl
  | cons a pre ih => simp [ih]

@[simp] lemma getD_middle (d : α) : (pre ++ x :: post).getD pre.length d = x := by
  induction pre with
  | nil => rfl
  | cons a pre ih => simpa using ih

variable (l : List α)

/-- Past `pre` and `x`, a list spliced over the front of `l` reads as `l`. -/
lemma getD_splice_of_lt (d : α) {i : Nat} (hi : pre.length < i) :
    (pre ++ x :: l.drop (pre.length + 1)).getD i d = l.getD i d := by
  obtain ⟨m, rfl⟩ : ∃ m, i = pre.length + 1 + m := ⟨i - pre.length - 1, by omega⟩
  simp [List.getElem?_append_right, List.getElem?_drop, Nat.add_assoc, Nat.add_comm 1 m]

lemma set_splice_succ (h : pre.length + 1 < l.length) :
    (pre ++ x :: l.drop (pre.length + 1)).set (pre.length + 1) y =
      pre ++ x :: y :: l.drop (pre.length + 2) := by
  rw [List.drop_eq_getElem_cons h, List.set_append_right _ _ (by simp), Nat.add_sub_cancel_left]
  rfl

end Middle

end EdashPackager.Media
