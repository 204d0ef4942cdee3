import EdashPackager.Media.Base.Bytes

/-!
# Segment index references

The `sidx` box of a media segment lists one `SegmentReference` per subsegment. The segmenter
reads and writes five fields of a reference, with the widths `box_definitions.h` gives them
(the header is not among the sources): `referenced_size`, `subsegment_duration` and
`sap_delta_time` are `uint32_t`, `earliest_presentation_time` is `uint64_t`. `SAPType` keeps the
one distinction the code makes, an unknown type against the others.

The second half states what coalescing the references is for, in the specification's words:
the references are cut into consecutive groups of `P`, and each group is merged into one entry
whose sizes and durations are the group's sums, whose earliest presentation time is the
group's minimum, and whose SAP is the group's first known one. The sums are exact, and an entry
stores them as its fields hold them.
-/

namespace EdashPackager.Media.Mp4

/-! ### Machine integers -/

section Widths

@[simp] lemma toNat_toUInt32 (n : Nat) : n.toUInt32.toNat = n % 2 ^ 32 := rfl

@[simp] lemma toNat_toUInt64 (n : Nat) : n.toUInt64.toNat = n % 2 ^ 64 := rfl

lemma toNat_min (a b : UInt64) : (min a b).toNat = min a.toNat b.toNat := by
  show (if a ≤ b then a else b).toNat = _
  by_cases h : a.toNat ≤ b.toNat
  · rw [if_pos (show a ≤ b from h), Nat.min_eq_left h]
  · rw [if_neg (show ¬a ≤ b from h), Nat.min_eq_right (by omega)]

@[simp] lemma toUInt32_toNat (a : UInt32) : a.toNat.toUInt32 = a :=
  UInt32.ext (by simpa using Nat.mod_eq_of_lt a.toNat_lt)

@[simp] lemma toUInt64_toNat (a : UInt64) : a.toNat.toUInt64 = a :=
  UInt64.ext (by simpa using Nat.mod_eq_of_lt a.toNat_lt)

/-- A 32-bit `+=` stores the exact sum modulo `2 ^ 32`. -/
lemma toUInt32_add (n : Nat) (a : UInt32) : n.toUInt32 + a = (n + a.toNat).toUInt32 :=
  UInt32.ext (by simp [UInt32.toNat_add, UInt32.size, Nat.add_mod])

lemma min_toUInt64 {n : Nat} (hn : n < 2 ^ 64) (a : UInt64) :
    min n.toUInt64 a = (min n a.toNat).toUInt64 :=
  UInt64.ext (by rw [toNat_min, toNat_toUInt64, toNat_toUInt64, Nat.mod_eq_of_lt hn,
    Nat.mod_eq_of_lt (by have := a.toNat_lt; omega)])

end Widths

/-- `SegmentReference::SAPType`: an unknown type, or one of the six SAP types. -/
inductive SAPType
  | typeUnknown | type1 | type2 | type3 | type4 | type5 | type6
  deriving DecidableEq, Repr, Inhabited

/-- The fields of `SegmentReference` that the segmenter uses. -/
structure SegmentReference where
  referencedSize : UInt32
  subsegmentDuration : UInt32
  sapType : SAPType
  sapDeltaTime : UInt32
  earliestPresentationTime : UInt64
  deriving DecidableEq, Repr, Inhabited

/-- The `sidx` box: its earliest presentation time and its references. -/
structure SegmentIndex where
  earliestPresentationTime : UInt64
  references : List SegmentReference
  deriving DecidableEq, Repr

namespace SegmentReference

/-- Whether the reference's SAP type is known. -/
def hasKnownSap (r : SegmentReference) : Bool := r.sapType != .typeUnknown

/-- `sap_delta_time + earliest_presentation_time`, in `uint64_t` as the code computes it. -/
def sapTime (r : SegmentReference) : UInt64 := r.sapDeltaTime.toUInt64 + r.earliestPresentationTime

/-- The presentation time of the reference's SAP, as a number. -/
def sapPresentationTime (r : SegmentReference) : Nat :=
  r.sapDeltaTime.toNat + r.earliestPresentationTime.toNat

lemma hasKnownSap_iff (r : SegmentReference) : r.hasKnownSap ↔ r.sapType ≠ .typeUnknown := by
  simp [hasKnownSap]

/-- Stored in 32 bits, the SAP's time less `m` is what the code's `uint64_t` difference
truncates to, when `m` is not past the reference's own presentation time. -/
lemma toUInt32_sapTime_sub (r : SegmentReference) {m : Nat}
    (hm : m ≤ r.earliestPresentationTime.toNat) :
    (r.sapTime - m.toUInt64).toUInt32 = (r.sapPresentationTime - m).toUInt32 := by
  have hd := r.sapDeltaTime.toNat_lt
  have he := r.earliestPresentationTime.toNat_lt
  apply UInt32.ext
  simp only [UInt64.toUInt32_toNat, UInt64.toNat_sub, UInt64.toNat_add, UInt32.toUInt64_toNat,
    toNat_toUInt64, toNat_toUInt32, sapTime, sapPresentationTime, UInt64.size]
  omega

end SegmentReference

/-! ### Groups of references -/

/-- `l` cut into consecutive groups of `P`: group `k` holds the elements with indices in
`[k * P, min ((k + 1) * P, l.length))`, the last group possibly shorter. -/
def chunks {α : Type} (P : Nat) (l : List α) : List (List α) :=
  (List.range ((l.length + P - 1) / P)).map fun k => (l.drop (k * P)).take P

section Chunks

variable {α : Type} (P : Nat)

@[simp] lemma chunks_nil : chunks P ([] : List α) = [] := by
  have h : (P - 1) / P = 0 := by
    rcases Nat.eq_zero_or_pos P with rfl | hP
    · rfl
    · exact Nat.div_eq_of_lt (by omega)
  simp [chunks, h]

@[simp] lemma length_chunks (l : List α) : (chunks P l).length = (l.length + P - 1) / P := by
  simp [chunks]

/-- Cutting a nonempty list: its first `P` elements, then the groups of the rest. -/
lemma chunks_of_ne_nil (hP : 0 < P) {l : List α} (hl : l ≠ []) :
    chunks P l = l.take P :: chunks P (l.drop P) := by
  have hlen : 0 < l.length := List.length_pos.mpr hl
  have hcount : (l.length + P - 1) / P = ((l.drop P).length + P - 1) / P + 1 := by
    have hrest : ((l.drop P).length + P - 1) / P = (l.length - 1) / P := by
      rw [List.length_drop]
      by_cases hle : P ≤ l.length
      · congr 1; omega
      · rw [Nat.div_eq_of_lt (by omega), Nat.div_eq_of_lt (by omega)]
    rw [hrest, show l.length + P - 1 = l.length - 1 + P by omega, Nat.add_div_right _ hP]
  simp only [chunks, hcount, List.range_succ_eq_map, List.map_cons, List.map_map, Nat.zero_mul,
    List.drop_zero]
  congr 2
  funext k
  simp [Nat.succ_mul, Nat.add_comm]

/-- The groups, put back together, are the list. -/
lemma flatten_chunks (hP : 0 < P) (l : List α) : (chunks P l).flatten = l := by
  induction' h : l.length using Nat.strong_induction_on with n ih generalizing l
  rcases l with _ | ⟨x, xs⟩
  · simp
  · rw [chunks_of_ne_nil P hP (List.cons_ne_nil x xs), List.flatten_cons,
      ih _ (by simp [← h]; omega) _ rfl, List.take_append_drop]

lemma mem_chunks_length_le {l g : List α} (hg : g ∈ chunks P l) : g.length ≤ P := by
  obtain ⟨k, -, rfl⟩ := List.mem_map.mp hg
  simp

end Chunks

/-! ### Merging a group, as the specification states it -/

/-- The referenced bytes of a group of references. -/
def totalSize (g : List SegmentReference) : Nat := (g.map (·.referencedSize.toNat)).sum

/-- The duration of a group of references. -/
def totalDuration (g : List SegmentReference) : Nat := (g.map (·.subsegmentDuration.toNat)).sum

/-- The earliest presentation time of a group of references (0 for no reference). -/
def earliestTime (g : List SegmentReference) : Nat :=
  ((g.map (·.earliestPresentationTime.toNat)).min?).getD 0

/-- The first reference of a group whose SAP type is known. -/
def firstKnownSap (g : List SegmentReference) : Option SegmentReference :=
  g.find? (·.hasKnownSap)

/-- Modelled from the spec: the merge of one group, each value stored in its field: summed sizes
and durations, the minimum time, the first known SAP type and its presentation time less the
minimum (unknown and 0 without a known SAP). -/
def mergeGroup (g : List SegmentReference) : SegmentReference where
  referencedSize := (totalSize g).toUInt32
  subsegmentDuration := (totalDuration g).toUInt32
  sapType := ((firstKnownSap g).map (·.sapType)).getD .typeUnknown
  sapDeltaTime :=
    ((firstKnownSap g).map fun r => (r.sapPresentationTime - earliestTime g).toUInt32).getD 0
  earliestPresentationTime := (earliestTime g).toUInt64

/-- Modelled from the spec: coalescing into subsegments of `P` references each. -/
def specSubsegments (P : Nat) (l : List SegmentReference) : List SegmentReference :=
  (chunks P l).map mergeGroup

section Merge

variable (r x : SegmentReference) (g : List SegmentReference)

@[simp] lemma totalSize_nil : totalSize [] = 0 := rfl

@[simp] lemma totalSize_cons : totalSize (r :: g) = r.referencedSize.toNat + totalSize g := by
  simp [totalSize]

@[simp] lemma totalSize_append (g' : List SegmentReference) :
    totalSize (g ++ g') = totalSize g + totalSize g' := by
  simp [totalSize]

@[simp] lemma totalDuration_nil : totalDuration [] = 0 := rfl

@[simp] lemma totalDuration_cons :
    totalDuration (r :: g) = r.subsegmentDuration.toNat + totalDuration g := by
  simp [totalDuration]

@[simp] lemma totalDuration_append (g' : List SegmentReference) :
    totalDuration (g ++ g') = totalDuration g + totalDuration g' := by
  simp [totalDuration]

lemma earliestTime_cons :
    earliestTime (r :: g) =
      (g.map (·.earliestPresentationTime.toNat)).foldl min r.earliestPresentationTime.toNat :=
  rfl

lemma earliestTime_append_singleton (hg : g ≠ []) :
    earliestTime (g ++ [x]) = min (earliestTime g) x.earliestPresentationTime.toNat := by
  obtain ⟨r, g, rfl⟩ := List.exists_cons_of_ne_nil hg
  simp [earliestTime_cons, List.foldl_append]

/-- No reference of a group presents before the group's earliest presentation time. -/
lemma earliestTime_le (hx : x ∈ g) : earliestTime g ≤ x.earliestPresentationTime.toNat :=
  List.min?_getD_le_of_mem (List.mem_map_of_mem _ hx)

lemma earliestTime_lt : earliestTime g < 2 ^ 64 := by
  cases g with
  | nil => decide
  | cons r g =>
    exact (earliestTime_le r (r :: g) (List.mem_cons_self r g)).trans_lt
      r.earliestPresentationTime.toNat_lt

lemma firstKnownSap_append_singleton :
    firstKnownSap (g ++ [x]) =
      (firstKnownSap g).or (if x.hasKnownSap then some x else none) := by
  simp only [firstKnownSap, List.find?_append, List.find?_cons, List.find?_nil]
  cases x.hasKnownSap <;> rfl

end Merge

end EdashPackager.Media.Mp4
