import EdashPackager.Media.Base.AesCtrEncryptor

/-!
# Subsample decryption of a sample

`decrypt_config.h` describes how a sample protected with subsamples is decrypted. Each
`SubsampleEntry` gives the clear bytes and then the encrypted bytes of one subsample; all the
encrypted bytes of the sample make one logical stream, however the subsamples divide them, and
the clear bytes take no part in decryption. The header states that this is the same as gathering
the encrypted bytes, decrypting them at once, and copying each decrypted byte back over its
encrypted byte. Without subsamples the whole sample is encrypted.

The decryptor is not among the sources, so both readings are modelled from the header. The
stream reading holds for any decryptor whose state runs on from one piece to the next.
`decryptSample` and `decryptSampleGathered` take `AesCtrEncryptor::CryptInternal` as the
decryptor and refuse a sample shorter than its subsamples, since the header makes a decrypted
buffer as long as their sum. They agree, and decrypting twice gives the covered bytes back.
-/

namespace EdashPackager.Media

/-- `SubsampleEntry`: the clear bytes, then the encrypted bytes, of one subsample. -/
structure SubsampleEntry where
  clearBytes : UInt16
  cipherBytes : UInt32
  deriving DecidableEq, Repr

/-- The fields of `DecryptConfig` decryption reads; the key is the block function. -/
structure DecryptConfig where
  iv : List Byte
  subsamples : List SubsampleEntry
  deriving DecidableEq, Repr

namespace SubsampleEntry

def clear (e : SubsampleEntry) : Nat := e.clearBytes.toNat

def cipher (e : SubsampleEntry) : Nat := e.cipherBytes.toNat

end SubsampleEntry

def subsamplesSize (subsamples : List SubsampleEntry) : Nat :=
  (subsamples.map fun e => e.clear + e.cipher).sum

/-- Modelled from the spec: the encrypted bytes of `sample`, gathered in order. -/
def gatherCipherBytes : List SubsampleEntry → List Byte → List Byte
  | [], _ => []
  | e :: es, b => (b.drop e.clear).take e.cipher ++ gatherCipherBytes es (b.drop (e.clear + e.cipher))

/-- Modelled from the spec: `sample` with its encrypted bytes replaced, in order, by those of
`d`. -/
def scatterCipherBytes : List SubsampleEntry → List Byte → List Byte → List Byte
  | [], _, _ => []
  | e :: es, b, d =>
    let n := ((b.drop e.clear).take e.cipher).length
    b.take e.clear ++ d.take n ++ scatterCipherBytes es (b.drop (e.clear + e.cipher)) (d.drop n)

/-- Modelled from the spec: decryption as one logical stream, the state of `crypt` running on
from one subsample's encrypted bytes to the next. -/
def streamSubsamples {σ : Type} (crypt : σ → List Byte → List Byte × σ) :
    σ → List SubsampleEntry → List Byte → List Byte
  | _, [], _ => []
  | s, e :: es, b =>
    let r := crypt s ((b.drop e.clear).take e.cipher)
    b.take e.clear ++ r.1 ++ streamSubsamples crypt r.2 es (b.drop (e.clear + e.cipher))

/-- Counter mode as the decryptor: `CryptInternal` with a buffer as large as its input. -/
def ctrCrypt (E : BlockCipher) (s : AesCtrEncryptor) (p : List Byte) :
    List Byte × AesCtrEncryptor :=
  (s.cryptInternal E p p.length).getD ([], s)

/-- Modelled from the spec: decrypting `sample` as one logical stream from `SetIvInternal` with
the config's IV, the whole sample without subsamples; `none` for a sample shorter than the sum
of its subsample sizes, the size the header gives a decrypted buffer. -/
def decryptSample (E : BlockCipher) (config : DecryptConfig) (sample : List Byte) :
    Option (List Byte) :=
  let s := AesCtrEncryptor.new.setIvInternal config.iv
  if sample.length < subsamplesSize config.subsamples then none
  else if config.subsamples.isEmpty then some (ctrCrypt E s sample).1
  else some (streamSubsamples (ctrCrypt E) s config.subsamples sample)

/-- Modelled from the spec: the header's second reading, the encrypted bytes gathered, decrypted
in one call and copied back. -/
def decryptSampleGathered (E : BlockCipher) (config : DecryptConfig) (sample : List Byte) :
    Option (List Byte) :=
  let s := AesCtrEncryptor.new.setIvInternal config.iv
  if sample.length < subsamplesSize config.subsamples then none
  else if config.subsamples.isEmpty then some (ctrCrypt E s sample).1
  else some (scatterCipherBytes config.subsamples sample
    (ctrCrypt E s (gatherCipherBytes config.subsamples sample)).1)

/-! ### The layout of the subsamples -/

section Layout

@[simp] lemma subsamplesSize_nil : subsamplesSize [] = 0 := rfl

@[simp] lemma subsamplesSize_cons (e : SubsampleEntry) (es : List SubsampleEntry) :
    subsamplesSize (e :: es) = e.clear + e.cipher + subsamplesSize es := by
  simp [subsamplesSize]

lemma scatter_gather (subsamples : List SubsampleEntry) (b : List Byte) :
    scatterCipherBytes subsamples b (gatherCipherBytes subsamples b) =
      b.take (subsamplesSize subsamples) := by
  induction subsamples generalizing b with
  | nil => rfl
  | cons e es ih =>
    simp only [scatterCipherBytes, gatherCipherBytes]
    rw [List.take_left' rfl, List.drop_left' rfl, ih, subsamplesSize_cons, Nat.add_assoc,
      List.take_add, List.take_add, List.drop_drop, List.append_assoc]

private lemma subsample_parts {A B C : List Byte} {c k : Nat} (hA : A.length = c)
    (hB : B.length = k) :
    (A ++ B ++ C).take c = A ∧ ((A ++ B ++ C).drop c).take k = B ∧
      (A ++ B ++ C).drop (c + k) = C := by
  refine ⟨?_, ?_, List.drop_left' (by simp [hA, hB])⟩
  · rw [List.append_assoc, List.take_left' hA]
  · rw [List.append_assoc, List.drop_left' hA, List.take_left' hB]

variable {subsamples : List SubsampleEntry} {b : List Byte}

/-- On a sample the subsamples cover, the encrypted bytes copied in are those gathered out. -/
lemma gather_scatter (hcover : subsamplesSize subsamples ≤ b.length) {d : List Byte}
    (hd : d.length = (gatherCipherBytes subsamples b).length) :
    gatherCipherBytes subsamples (scatterCipherBytes subsamples b d) = d := by
  induction subsamples generalizing b d with
  | nil => exact (List.length_eq_zero.mp hd).symm
  | cons e es ih =>
    simp only [subsamplesSize_cons] at hcover
    have hn : ((b.drop e.clear).take e.cipher).length = e.cipher := by simp; omega
    simp only [gatherCipherBytes, List.length_append, hn] at hd
    obtain ⟨-, h2, h3⟩ := subsample_parts
      (C := scatterCipherBytes es (b.drop (e.clear + e.cipher)) (d.drop e.cipher))
      (show (b.take e.clear).length = e.clear by simp; omega)
      (show (d.take e.cipher).length = e.cipher by simp; omega)
    simp only [scatterCipherBytes, gatherCipherBytes, hn, h2, h3]
    rw [ih (by simp; omega) (by simp; omega), List.take_append_drop]

/-- On a sample the subsamples cover, copying in a second time overwrites the first. -/
lemma scatter_scatter (hcover : subsamplesSize subsamples ≤ b.length) {d : List Byte}
    (hd : d.length = (gatherCipherBytes subsamples b).length) (d' : List Byte) :
    scatterCipherBytes subsamples (scatterCipherBytes subsamples b d) d' =
      scatterCipherBytes subsamples b d' := by
  induction subsamples generalizing b d d' with
  | nil => rfl
  | cons e es ih =>
    simp only [subsamplesSize_cons] at hcover
    have hn : ((b.drop e.clear).take e.cipher).length = e.cipher := by simp; omega
    simp only [gatherCipherBytes, List.length_append, hn] at hd
    have hk : (d.take e.cipher).length = e.cipher := by simp; omega
    obtain ⟨h1, h2, h3⟩ := subsample_parts
      (C := scatterCipherBytes es (b.drop (e.clear + e.cipher)) (d.drop e.cipher))
      (show (b.take e.clear).length = e.clear by simp; omega) hk
    simp only [scatterCipherBytes, hn, h1, h2, h3, hk]
    rw [ih (by simp; omega) (by simp; omega)]

lemma length_scatterCipherBytes {d : List Byte}
    (hd : d.length = (gatherCipherBytes subsamples b).length) :
    (scatterCipherBytes subsamples b d).length = min (subsamplesSize subsamples) b.length := by
  induction subsamples generalizing b d with
  | nil => simp [scatterCipherBytes]
  | cons e es ih =>
    have hn : ((b.drop e.clear).take e.cipher).length = min e.cipher (b.length - e.clear) := by
      simp
    simp only [gatherCipherBytes, List.length_append, hn] at hd
    have hrest := ih (b := b.drop (e.clear + e.cipher)) (d := d.drop (min e.cipher
      (b.length - e.clear))) (by simp only [List.length_drop]; omega)
    simp only [scatterCipherBytes, List.length_append, List.length_take, List.length_drop, hn,
      hrest, subsamplesSize_cons]
    omega

end Layout

/-! ### Counter mode as the decryptor -/

section Counter

variable {E : BlockCipher} {iv : List Byte}

lemma CtrInv.ctrCrypt_eq {n : Nat} {s : AesCtrEncryptor} (h : CtrInv E iv n s) (p : List Byte) :
    (ctrCrypt E s p).1 = xorKeystream E iv n p ∧
      CtrInv E iv (n + p.length) (ctrCrypt E s p).2 := by
  have hc : s.cryptInternal E p p.length = some (s.cryptLoop E p) := by
    simp [AesCtrEncryptor.cryptInternal]
  simpa [ctrCrypt, hc] using h.cryptLoop p

/-- The subsamples in turn through counter mode: the keystream XORed into the gathered bytes. -/
lemma CtrInv.streamSubsamples_eq {n : Nat} {s : AesCtrEncryptor} (h : CtrInv E iv n s)
    (subsamples : List SubsampleEntry) (b : List Byte) :
    streamSubsamples (ctrCrypt E) s subsamples b =
      scatterCipherBytes subsamples b (xorKeystream E iv n (gatherCipherBytes subsamples b)) := by
  induction subsamples generalizing n s b with
  | nil => rfl
  | cons e es ih =>
    obtain ⟨hp, h1⟩ := h.ctrCrypt_eq ((b.drop e.clear).take e.cipher)
    simp only [streamSubsamples, scatterCipherBytes, gatherCipherBytes, xorKeystream_append]
    rw [hp, ih h1, List.take_left' (length_xorKeystream ..),
      List.drop_left' (length_xorKeystream ..)]

end Counter

/-- Counter mode XORs the keystream of the config's IV into the whole sample, or into its
gathered encrypted bytes, copied back. -/
lemma decryptSample_eq (E : BlockCipher) (config : DecryptConfig) (sample : List Byte) :
    decryptSample E config sample =
      if sample.length < subsamplesSize config.subsamples then none
      else some (if config.subsamples = [] then xorKeystream E config.iv 0 sample
        else scatterCipherBytes config.subsamples sample
          (xorKeystream E config.iv 0 (gatherCipherBytes config.subsamples sample))) := by
  have h0 := ctrInv_setIvInternal E AesCtrEncryptor.new config.iv
  simp only [decryptSample, List.isEmpty_iff, (h0.ctrCrypt_eq _).1, h0.streamSubsamples_eq,
    apply_ite some]

/-- With counter mode as the decryptor, the stream across the subsamples and the gathered
reading agree, and decrypting a decrypted sample gives back the bytes the subsamples cover. -/
theorem subsample_stream_decryption (E : BlockCipher) (config : DecryptConfig)
    (sample : List Byte) :
    decryptSample E config sample = decryptSampleGathered E config sample ∧
    ∀ d, decryptSample E config sample = some d →
      decryptSample E config d =
        some (if config.subsamples = [] then sample
          else sample.take (subsamplesSize config.subsamples)) := by
  have h0 := ctrInv_setIvInternal E AesCtrEncryptor.new config.iv
  refine ⟨?_, fun d hd => ?_⟩
  · simp only [decryptSample, decryptSampleGathered, h0.streamSubsamples_eq, (h0.ctrCrypt_eq _).1]
  rw [decryptSample_eq] at hd
  split_ifs at hd with hshort hnil <;> obtain rfl := (Option.some.inj hd).symm
  · -- without subsamples the keystream undoes itself
    simp only [decryptSample_eq, hnil, if_true, length_xorKeystream, subsamplesSize_nil,
      Nat.not_lt_zero, if_false, xorKeystream_xorKeystream]
  · -- the encrypted bytes copied in are gathered out again and decrypted back
    have hlen := length_xorKeystream E config.iv 0 (gatherCipherBytes config.subsamples sample)
    have hcover : subsamplesSize config.subsamples ≤ sample.length := not_lt.mp hshort
    rw [decryptSample_eq, if_neg hnil, if_neg hnil, if_neg (by
      rw [length_scatterCipherBytes hlen]; omega), gather_scatter hcover hlen,
      xorKeystream_xorKeystream, scatter_scatter hcover hlen, scatter_gather]

/-- Eight bytes in two subsamples, under an IV whose keystream block is its own bytes. -/
theorem subsample_stream_decryption_two_subsamples :
    decryptSample ⟨fun b => resize b 16 0, fun b => length_resize b 16 0⟩
        ⟨List.replicate 16 5, [⟨2, 3⟩, ⟨1, 2⟩]⟩ (List.replicate 8 1) =
      decryptSampleGathered ⟨fun b => resize b 16 0, fun b => length_resize b 16 0⟩
        ⟨List.replicate 16 5, [⟨2, 3⟩, ⟨1, 2⟩]⟩ (List.replicate 8 1) ∧
    decryptSample ⟨fun b => resize b 16 0, fun b => length_resize b 16 0⟩
        ⟨List.replicate 16 5, [⟨2, 3⟩, ⟨1, 2⟩]⟩ (List.replicate 8 1) = some [1, 1, 4, 4, 4, 1, 4, 4] ∧
    decryptSample ⟨fun b => resize b 16 0, fun b => length_resize b 16 0⟩
        ⟨List.replicate 16 5, [⟨2, 3⟩, ⟨1, 2⟩]⟩ [1, 1, 4, 4, 4, 1, 4, 4] =
      some (if ([⟨2, 3⟩, ⟨1, 2⟩] : List SubsampleEntry) = [] then List.replicate 8 1
        else (List.replicate 8 1).take (subsamplesSize [⟨2, 3⟩, ⟨1, 2⟩])) := by
  have hd : decryptSample ⟨fun b => resize b 16 0, fun b => length_resize b 16 0⟩
      ⟨List.replicate 16 5, [⟨2, 3⟩, ⟨1, 2⟩]⟩ (List.replicate 8 1) =
        some [1, 1, 4, 4, 4, 1, 4, 4] := by decide
  exact ⟨(subsample_stream_decryption ⟨fun b => resize b 16 0, fun b => length_resize b 16 0⟩
      ⟨List.replicate 16 5, [⟨2, 3⟩, ⟨1, 2⟩]⟩ (List.replicate 8 1)).1, hd,
    (subsample_stream_decryption ⟨fun b => resize b 16 0, fun b => length_resize b 16 0⟩
      ⟨List.replicate 16 5, [⟨2, 3⟩, ⟨1, 2⟩]⟩ (List.replicate 8 1)).2 _ hd⟩

end EdashPackager.Media
