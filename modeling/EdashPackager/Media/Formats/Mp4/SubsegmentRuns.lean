import EdashPackager.Media.Formats.Mp4.MultiSegmentSegmenter

/-!
# The runs `DoFinalizeSegment` merges

`coalesceRuns` follows the loop reference by reference; this file says what it amounts to, run
by run. The loop's `frag_index` starts at 0 but restarts at 1, so the first subsegment closes
after `P + 1` references and every later one after `P`, and a last run that does not reach its
size is never closed (`coalesceRuns_eq`). Each entry is the specification's `mergeGroup` of its
run, with the fields' widths, except for the SAP delta of a run left open or without a known
SAP (`runEntry_eq`). The resize to `S` keeps the entries and `S` less that many original
references after them (`references_doFinalizeSegment`), which the segment's totals then count
twice.
-/

namespace EdashPackager.Media.Mp4

/-! ### Runs and their entries -/

/-- The entry the loop builds for a run, paired with `first_sap_time`. -/
def openRun : List SegmentReference → SegmentReference × UInt64
  | [] => (default, 0)
  | r :: rs => rs.foldl absorb (r, r.sapTime)

/-- The entry the loop leaves for a run that closes once it holds `size` references. -/
def runEntry (size : Nat) (g : List SegmentReference) : SegmentReference :=
  if size ≤ g.length then closeSubsegment (openRun g) else (openRun g).1

/-- The runs `DoFinalizeSegment` merges for `P` fragments a subsegment: the first `P + 1`
references, then groups of `P`. -/
def coalescedRuns {α : Type} (P : Nat) (l : List α) : List (List α) :=
  l.take (P + 1) :: chunks P (l.drop (P + 1))

/-- The entries of the runs: the first run closes at `P + 1` references, the others at `P`. -/
def coalescedEntries (P : Nat) (l : List SegmentReference) : List SegmentReference :=
  match coalescedRuns P l with
  | [] => []
  | g :: gs => runEntry (P + 1) g :: gs.map (runEntry P)

lemma coalescedEntries_eq (P : Nat) (l : List SegmentReference) :
    coalescedEntries P l =
      runEntry (P + 1) (l.take (P + 1)) :: (chunks P (l.drop (P + 1))).map (runEntry P) := rfl

@[simp] lemma openRun_cons (r : SegmentReference) (rs : List SegmentReference) :
    openRun (r :: rs) = rs.foldl absorb (r, r.sapTime) := rfl

/-! ### The loop's recursion, run by run -/

section Runs

variable {P : Nat} (hP : 2 ≤ P)

/-- The loop's outcome from a run's first reference `y` with `k` references still to absorb: the
entry of the run `y :: ys.take k`, closed if it got them all, then the groups after it. -/
lemma runEntry_cons_take (k : Nat) (y : SegmentReference) (ys : List SegmentReference) :
    (if k ≤ ys.length then
        closeSubsegment ((ys.take k).foldl absorb (y, y.sapTime)) ::
          (chunks P (ys.drop k)).map (runEntry P)
      else [(ys.foldl absorb (y, y.sapTime)).1]) =
      runEntry (k + 1) (y :: ys.take k) :: (chunks P (ys.drop k)).map (runEntry P) := by
  by_cases h : k ≤ ys.length
  · simp [runEntry, h]
  · simp [runEntry, h, List.take_of_length_le (by omega : ys.length ≤ k),
      List.drop_of_length_le (by omega : ys.length ≤ k)]

include hP in
/-- From a reference `y` that opens a run with `frag_index = 1`: a closed run of `P`, then the
groups of the rest; or one open run. -/
lemma map_runEntry_chunks_cons (y : SegmentReference) (ys : List SegmentReference) :
    (chunks P (y :: ys)).map (runEntry P) =
      if P - 1 ≤ ys.length then
        closeSubsegment ((ys.take (P - 1)).foldl absorb (y, y.sapTime)) ::
          (chunks P (ys.drop (P - 1))).map (runEntry P)
      else [(ys.foldl absorb (y, y.sapTime)).1] := by
  obtain ⟨p, rfl⟩ : ∃ p, P = p + 1 := ⟨P - 1, by omega⟩
  rw [chunks_of_ne_nil _ (by omega) (List.cons_ne_nil y ys), Nat.add_sub_cancel,
    runEntry_cons_take]
  rfl

include hP in
/-- From an open entry with `frag_index = k < P`, the run closes after `P - k` more references,
if there are that many, and the next runs are groups of `P`. -/
lemma coalesceRuns_eq_of_lt (a : SegmentReference × UInt64) (k : Nat)
    (xs : List SegmentReference) (hk : k < P) :
    coalesceRuns P a k xs =
      if P - k ≤ xs.length then
        closeSubsegment ((xs.take (P - k)).foldl absorb a) ::
          (chunks P (xs.drop (P - k))).map (runEntry P)
      else [(xs.foldl absorb a).1] := by
  induction a, k, xs using coalesceRuns.induct P with
  | case1 a k => simp [show P - k ≠ 0 by omega]
  | case2 a k x hle =>
    obtain rfl : k + 1 = P := by omega
    simp [coalesceRuns_singleton_of_le _ _ _ _ hle]
  | case3 a k x hlt =>
    simp [coalesceRuns, hlt, show ¬P ≤ 1 + k by omega]
  | case4 a k x y ys hle ih =>
    obtain rfl : k + 1 = P := by omega
    rw [coalesceRuns_cons_cons_of_le _ _ _ _ _ _ hle, ih (by omega),
      ← map_runEntry_chunks_cons hP]
    simp
  | case5 a k x y ys hlt ih =>
    rw [coalesceRuns_cons_of_lt _ _ _ _ _ (by omega), ih (by omega),
      show P - k = P - (k + 1) + 1 by omega]
    simp [List.take_succ_cons, List.drop_succ_cons]

include hP in
/-- The loop's recursion from the first reference yields the entries of `coalescedRuns`. -/
theorem coalesceRuns_eq (r : SegmentReference) (rs : List SegmentReference) :
    coalesceRuns P (r, r.sapTime) 0 rs = coalescedEntries P (r :: rs) := by
  rw [coalesceRuns_eq_of_lt hP _ _ _ (by omega), Nat.sub_zero, runEntry_cons_take]
  rfl

include hP in
/-- Started with `frag_index = 1`, as it restarts every later run, the loop merges exactly the
specification's groups of `P`; `DoFinalizeSegment`'s first run is one longer only because the
loop starts at 0. -/
theorem coalesceLoop_from_one (r : SegmentReference) (rs : List SegmentReference) :
    (coalesceLoop (r :: rs).length P (r :: rs).length ⟨r :: rs, 1, 1, 0, r.sapTime⟩).refs =
      (chunks P (r :: rs)).map (runEntry P) ++ (r :: rs).drop (chunks P (r :: rs)).length := by
  have hinit : (⟨r :: rs, 1, 1, 0, r.sapTime⟩ : CoalesceState) =
      CoalesceState.atRun (r :: rs) [] (r, r.sapTime) 1 1 := rfl
  rw [hinit, coalesceLoop_atRun P (r, r.sapTime) 1 _ (by simp) (by simp) (by simp),
    List.drop_one, List.tail_cons, coalesceRuns_eq_of_lt hP _ _ _ (by omega),
    ← map_runEntry_chunks_cons hP]
  simp

theorem coalesceLoop_from_one_ten :
    2 ≤ 4 ∧
      (coalesceLoop 10 4 10 ⟨(List.range 10).map fun k => ⟨100, 10, .type1, 0, (10 * k).toUInt64⟩,
          1, 1, 0, 0⟩).refs =
        (chunks 4 ((List.range 10).map fun k =>
          (⟨100, 10, .type1, 0, (10 * k).toUInt64⟩ : SegmentReference))).map (runEntry 4) ++
          ((List.range 10).map fun k =>
            (⟨100, 10, .type1, 0, (10 * k).toUInt64⟩ : SegmentReference)).drop
            (chunks 4 ((List.range 10).map fun k =>
              (⟨100, 10, .type1, 0, (10 * k).toUInt64⟩ : SegmentReference))).length :=
  have hl : ((List.range 10).map fun k =>
      (⟨100, 10, .type1, 0, (10 * k).toUInt64⟩ : SegmentReference)) =
      ⟨100, 10, .type1, 0, 0⟩ :: (List.range 9).map fun k =>
        ⟨100, 10, .type1, 0, (10 * (k + 1)).toUInt64⟩ := by decide
  ⟨by decide, by rw [hl]; exact coalesceLoop_from_one (by decide) _ _⟩

end Runs

/-! ### The runs partition the references -/

section Partition

variable {α : Type} {P : Nat} (l : List α)

lemma flatten_coalescedRuns (hP : 0 < P) : (coalescedRuns P l).flatten = l := by
  simp [coalescedRuns, flatten_chunks P hP]

lemma mem_chunks_ne_nil (hP : 0 < P) {g : List α} (hg : g ∈ chunks P l) : g ≠ [] := by
  obtain ⟨k, hk, rfl⟩ := List.mem_map.mp hg
  have hk' : k * P < l.length := by
    have h := List.mem_range.mp hk
    have : (k + 1) * P ≤ l.length + P - 1 := (Nat.le_div_iff_mul_le hP).mp h
    rw [Nat.succ_mul] at this
    omega
  simp [List.take_eq_nil_iff, hP.ne', List.drop_eq_nil_iff]
  omega

lemma length_of_mem_dropLast_chunks (hP : 0 < P) {g : List α}
    (hg : g ∈ (chunks P l).dropLast) : g.length = P := by
  induction' h : l.length using Nat.strong_induction_on with n ih generalizing l
  by_cases hl : l = []
  · simp [hl] at hg
  rw [chunks_of_ne_nil P hP hl] at hg
  by_cases hd : l.drop P = []
  · simp [hd] at hg
  rw [List.dropLast_cons_of_ne_nil (by rw [chunks_of_ne_nil P hP hd]; simp)] at hg
  rcases List.mem_cons.mp hg with rfl | hg
  · have : P < l.length := by simpa [List.drop_eq_nil_iff] using hd
    simp; omega
  · exact ih _ (by rw [← h, List.length_drop]; have := List.length_pos.mpr hl; omega) _ hg rfl

lemma mem_coalescedRuns_ne_nil (hP : 0 < P) (hl : l ≠ []) {g : List α}
    (hg : g ∈ coalescedRuns P l) : g ≠ [] := by
  rcases List.mem_cons.mp hg with rfl | hg
  · simpa [List.take_eq_nil_iff] using hl
  · exact mem_chunks_ne_nil _ hP hg

end Partition

/-! ### Each entry against the specification's merge -/

section Entries

variable {g : List SegmentReference} {y : SegmentReference}

lemma sapType_ne_of_firstKnownSap (h : firstKnownSap g = some y) : y.sapType ≠ .typeUnknown :=
  (SegmentReference.hasKnownSap_iff y).mp (List.find?_some h)

/-- The first known SAP of a run is never presented before the run's earliest time. -/
lemma earliestTime_le_sapPresentationTime (h : firstKnownSap g = some y) :
    earliestTime g ≤ y.sapPresentationTime :=
  (earliestTime_le y g (List.mem_of_find?_eq_some h)).trans (Nat.le_add_left _ _)

/-- The open entry of a run is the specification's merge in every field but the SAP delta, and
`first_sap_time` is the time of the run's first known SAP. -/
lemma openRun_eq (r : SegmentReference) (rs : List SegmentReference) :
    openRun (r :: rs) =
      ({ mergeGroup (r :: rs) with sapDeltaTime := r.sapDeltaTime },
        ((firstKnownSap (r :: rs)).map (·.sapTime)).getD r.sapTime) := by
  induction rs using List.reverseRecOn with
  | nil =>
    obtain ⟨size, duration, type, delta, time⟩ := r
    cases type <;> simp [mergeGroup, earliestTime, firstKnownSap, SegmentReference.hasKnownSap]
  | append_singleton rs x ih =>
    have hg : r :: rs ≠ [] := List.cons_ne_nil r rs
    simp only [openRun_cons, List.foldl_append, List.foldl_cons, List.foldl_nil] at ih ⊢
    rw [ih, ← List.cons_append]
    unfold absorb mergeGroup
    rw [totalSize_append, totalDuration_append, earliestTime_append_singleton _ _ hg,
      firstKnownSap_append_singleton, min_toUInt64 (earliestTime_lt _), toUInt32_add, toUInt32_add]
    rcases hf : firstKnownSap (r :: rs) with _ | y
    · by_cases hk : x.sapType = .typeUnknown <;> simp [hk, SegmentReference.hasKnownSap]
    · simp [sapType_ne_of_firstKnownSap hf]

/-- A run's entry is the specification's merge, except for the SAP delta of a run the loop did
not close or without a known SAP, which stays its first reference's. -/
lemma runEntry_eq (size : Nat) (r : SegmentReference) (rs : List SegmentReference) :
    runEntry size (r :: rs) =
      if size ≤ rs.length + 1 ∧ (firstKnownSap (r :: rs)).isSome then mergeGroup (r :: rs)
      else { mergeGroup (r :: rs) with sapDeltaTime := r.sapDeltaTime } := by
  rw [runEntry, openRun_eq]
  rcases hf : firstKnownSap (r :: rs) with _ | y
  · simp [closeSubsegment, mergeGroup, hf]
  · have hdelta := y.toUInt32_sapTime_sub (earliestTime_le y _ (List.mem_of_find?_eq_some hf))
    by_cases hs : size ≤ rs.length + 1
    · simp [closeSubsegment, mergeGroup, hf, hs, sapType_ne_of_firstKnownSap hf, hdelta]
    · simp [hs]

lemma runEntry_of_closed (size : Nat) (hg : g ≠ []) (h : size ≤ g.length) :
    runEntry size g =
      if (firstKnownSap g).isSome then mergeGroup g
      else { mergeGroup g with sapDeltaTime := (g.headD default).sapDeltaTime } := by
  obtain ⟨r, rs, rfl⟩ := List.exists_cons_of_ne_nil hg
  rw [runEntry_eq]
  simp only [List.length_cons] at h
  simp [h]

lemma runEntry_totals (size : Nat) (hg : g ≠ []) :
    (runEntry size g).referencedSize = (totalSize g).toUInt32 ∧
      (runEntry size g).subsegmentDuration = (totalDuration g).toUInt32 := by
  obtain ⟨r, rs, rfl⟩ := List.exists_cons_of_ne_nil hg
  rw [runEntry_eq]
  split_ifs <;> exact ⟨rfl, rfl⟩

/-- Runs whose totals fit in 32 bits keep them in their entries. -/
lemma totals_map_runEntry (size : Nat) (gs : List (List SegmentReference))
    (hgs : ∀ g ∈ gs, g ≠ []) (hs : totalSize gs.flatten < 2 ^ 32)
    (hd : totalDuration gs.flatten < 2 ^ 32) :
    totalSize (gs.map (runEntry size)) = totalSize gs.flatten ∧
      totalDuration (gs.map (runEntry size)) = totalDuration gs.flatten := by
  induction gs with
  | nil => exact ⟨rfl, rfl⟩
  | cons g gs ih =>
    simp only [List.flatten_cons, totalSize_append, totalDuration_append] at hs hd
    obtain ⟨hgs', hgd⟩ := runEntry_totals size (hgs g (List.mem_cons_self g gs))
    obtain ⟨ihs, ihd⟩ := ih (fun g' hg' => hgs g' (List.mem_cons_of_mem g hg')) (by omega)
      (by omega)
    have hgs32 : totalSize g < 2 ^ 32 := by omega
    have hgd32 : totalDuration g < 2 ^ 32 := by omega
    simp only [List.map_cons, totalSize_cons, totalDuration_cons, List.flatten_cons,
      totalSize_append, totalDuration_append, hgs', hgd, toNat_toUInt32, Nat.mod_eq_of_lt hgs32,
      Nat.mod_eq_of_lt hgd32, ihs, ihd, and_self]

/-- Every entry but the last is closed: the specification's merge of its run, each value stored
in its field, when the run has a known SAP, never presented before the run's earliest time;
otherwise the merge with its first reference's SAP delta. -/
theorem coalescedEntries_dropLast {P : Nat} (hP : 0 < P) (l : List SegmentReference) :
    (coalescedEntries P l).dropLast =
      (coalescedRuns P l).dropLast.map (fun g =>
        if (firstKnownSap g).isSome then mergeGroup g
        else { mergeGroup g with sapDeltaTime := (g.headD default).sapDeltaTime }) ∧
      ∀ g ∈ coalescedRuns P l, ∀ y, firstKnownSap g = some y →
        earliestTime g ≤ y.sapPresentationTime := by
  refine ⟨?_, fun g _ y hy => earliestTime_le_sapPresentationTime hy⟩
  by_cases hC : chunks P (l.drop (P + 1)) = []
  · simp [coalescedEntries_eq, coalescedRuns, hC]
  have hl : P + 1 < l.length := by
    by_contra h
    exact hC (by simp [List.drop_eq_nil_of_le (by omega : l.length ≤ P + 1)])
  rw [coalescedEntries_eq, coalescedRuns, List.dropLast_cons_of_ne_nil (by simpa using hC),
    List.dropLast_cons_of_ne_nil hC, List.map_cons, ← List.map_dropLast,
    runEntry_of_closed _ (List.ne_nil_of_length_pos (by rw [List.length_take]; omega))
      (by rw [List.length_take]; omega)]
  congr 1
  exact List.map_congr_left fun g hg =>
    runEntry_of_closed _ (mem_chunks_ne_nil _ hP (List.mem_of_mem_dropLast hg))
      (length_of_mem_dropLast_chunks _ hP hg).ge

theorem coalescedEntries_dropLast_six :
    0 < 3 ∧
      ((coalescedEntries 3 [⟨1, 10, .typeUnknown, 5, 0⟩, ⟨1, 10, .type1, 0, 10⟩,
          ⟨1, 10, .type1, 0, 20⟩, ⟨1, 10, .type1, 0, 30⟩, ⟨1, 10, .typeUnknown, 0, 40⟩,
          ⟨1, 10, .type1, 0, 50⟩]).dropLast =
        (coalescedRuns 3 [⟨1, 10, .typeUnknown, 5, 0⟩, ⟨1, 10, .type1, 0, 10⟩,
          ⟨1, 10, .type1, 0, 20⟩, ⟨1, 10, .type1, 0, 30⟩, ⟨1, 10, .typeUnknown, 0, 40⟩,
          ⟨1, 10, .type1, 0, 50⟩]).dropLast.map (fun g =>
          if (firstKnownSap g).isSome then mergeGroup g
          else { mergeGroup g with sapDeltaTime := (g.headD default).sapDeltaTime }) ∧
        ∀ g ∈ coalescedRuns 3 [⟨1, 10, .typeUnknown, 5, 0⟩, ⟨1, 10, .type1, 0, 10⟩,
          ⟨1, 10, .type1, 0, 20⟩, ⟨1, 10, .type1, 0, 30⟩, ⟨1, 10, .typeUnknown, 0, 40⟩,
          ⟨1, 10, .type1, 0, 50⟩], ∀ y, firstKnownSap g = some y →
          earliestTime g ≤ y.sapPresentationTime) :=
  ⟨by decide, coalescedEntries_dropLast (by decide) _⟩

/-- A run the loop does not close keeps its first reference's SAP delta: with
`num_subsegments_per_sidx = 1` the delta stays 0 where the specification's merge has 10, and with
six fragments and `num_subsegments_per_sidx = 2` the last run, left open, keeps 0 likewise. -/
theorem doFinalizeSegment_open_run_sap_delta :
    doFinalizeSegment 1 ⟨0, [⟨1, 10, .typeUnknown, 0, 0⟩, ⟨1, 10, .type1, 0, 10⟩]⟩ =
        ⟨0, [⟨2, 20, .type1, 0, 0⟩]⟩ ∧
      mergeGroup [⟨1, 10, .typeUnknown, 0, 0⟩, ⟨1, 10, .type1, 0, 10⟩] =
        ⟨2, 20, .type1, 10, 0⟩ ∧
      (doFinalizeSegment 2 ⟨0, [⟨1, 10, .type1, 0, 0⟩, ⟨1, 10, .type1, 0, 10⟩,
          ⟨1, 10, .type1, 0, 20⟩, ⟨1, 10, .type1, 0, 30⟩, ⟨1, 10, .typeUnknown, 0, 40⟩,
          ⟨1, 10, .type1, 0, 50⟩]⟩).references =
        [⟨4, 40, .type1, 0, 0⟩, ⟨2, 20, .type1, 0, 40⟩] ∧
      mergeGroup [⟨1, 10, .typeUnknown, 0, 40⟩, ⟨1, 10, .type1, 0, 50⟩] =
        ⟨2, 20, .type1, 10, 40⟩ := by
  decide

end Entries

/-! ### `DoFinalizeSegment` -/

/-- The original references the resize to `S` keeps after the `R` entries of the runs. -/
def keptReferences (S : Nat) (l : List SegmentReference) : List SegmentReference :=
  let R := (coalescedRuns (numFragmentsPerSubsegment l.length S) l).length
  (l.drop R).take (S - R)

lemma length_coalescedEntries_le {S : Nat} (hS : 0 < S) (l : List SegmentReference) :
    (coalescedEntries (numFragmentsPerSubsegment l.length S) l).length ≤ S := by
  obtain ⟨P, hP⟩ : ∃ P, P = numFragmentsPerSubsegment l.length S := ⟨_, rfl⟩
  rw [← hP]
  have hlt : l.length - 1 < S * P := hP ▸ Nat.lt_mul_div_succ _ hS
  have hPS : P ≤ S * P := Nat.le_mul_of_pos_left P hS
  have hdiv : (l.length - (P + 1) + P - 1) / P < S :=
    (Nat.div_lt_iff_lt_mul (hP ▸ Nat.succ_pos _)).mpr (by omega)
  simp only [coalescedEntries_eq, List.length_cons, List.length_map, length_chunks,
    List.length_drop]
  omega

lemma length_coalescedEntries {P : Nat} (l : List SegmentReference) :
    (coalescedEntries P l).length = (coalescedRuns P l).length := by
  simp [coalescedEntries_eq, coalescedRuns]

lemma totals_coalescedEntries {P : Nat} (hP : 0 < P) (l : List SegmentReference)
    (hl : l ≠ []) (hs : totalSize l < 2 ^ 32) (hd : totalDuration l < 2 ^ 32) :
    totalSize (coalescedEntries P l) = totalSize l ∧
      totalDuration (coalescedEntries P l) = totalDuration l := by
  have hsplit := List.take_append_drop (P + 1) l
  rw [← hsplit, totalSize_append] at hs
  rw [← hsplit, totalDuration_append] at hd
  obtain ⟨hss, hdd⟩ := totals_map_runEntry P (chunks P (l.drop (P + 1)))
    (fun g hg => mem_chunks_ne_nil _ hP hg)
    (by rw [flatten_chunks P hP]; omega) (by rw [flatten_chunks P hP]; omega)
  obtain ⟨hs1, hd1⟩ := runEntry_totals (P + 1) (g := l.take (P + 1))
    (List.ne_nil_of_length_pos (by simp [List.length_pos.mpr hl]))
  rw [flatten_chunks P hP] at hss hdd
  rw [coalescedEntries_eq, totalSize_cons, totalDuration_cons, hs1, hd1, toNat_toUInt32,
    toNat_toUInt32, Nat.mod_eq_of_lt (by omega), Nat.mod_eq_of_lt (by omega), hss, hdd,
    ← totalSize_append, ← totalDuration_append, hsplit]
  exact ⟨rfl, rfl⟩

lemma totalDuration_keptReferences_le (S : Nat) (l : List SegmentReference) :
    totalDuration (keptReferences S l) ≤ totalDuration l :=
  (((List.take_sublist _ _).trans (List.drop_sublist _ _)).map _).sum_le_sum
    fun _ _ => Nat.zero_le _

section Finalize

variable {n : Int} (t : UInt64) (r : SegmentReference) (rs : List SegmentReference)

lemma length_coalescedEntries_le_toNat (hn : 0 < n) :
    (coalescedEntries (numFragmentsPerSubsegment (rs.length + 1) n.toNat) (r :: rs)).length ≤
      n.toNat := by
  simpa using length_coalescedEntries_le (S := n.toNat) (by omega) (r :: rs)

/-- When `DoFinalizeSegment` coalesces, it leaves the entries of the runs, then the original
references it keeps to fill `S`. -/
lemma references_doFinalizeSegment (hn : 0 < n) (hS : n.toNat ≤ rs.length) :
    (doFinalizeSegment n ⟨t, r :: rs⟩).references =
      coalescedEntries (numFragmentsPerSubsegment (rs.length + 1) n.toNat) (r :: rs) ++
        keptReferences n.toNat (r :: rs) := by
  have hP : 2 ≤ numFragmentsPerSubsegment (rs.length + 1) n.toNat := by
    have : 0 < rs.length / n.toNat := Nat.div_pos hS (by omega)
    simp only [numFragmentsPerSubsegment, Nat.add_sub_cancel]
    omega
  rw [doFinalizeSegment_eq, if_neg (by omega)]
  simp only
  rw [coalesceRuns_eq hP, List.take_append_eq_append_take,
    List.take_of_length_le (length_coalescedEntries_le_toNat r rs hn)]
  simp only [keptReferences, List.length_cons, length_coalescedEntries]

/-- `DoFinalizeSegment` on the references `r :: rs` with the option `S`: with `S ≤ 0`, or no
more references than `S`, they stay; otherwise they become the at most `S` entries of the runs
of `coalescedRuns`, then the original references that fill `S`. -/
theorem doFinalizeSegment_spec :
    (0 < n → (coalescedEntries (numFragmentsPerSubsegment (rs.length + 1) n.toNat)
      (r :: rs)).length ≤ n.toNat) ∧
      doFinalizeSegment n ⟨t, r :: rs⟩ =
        if n ≤ 0 ∨ rs.length < n.toNat then ⟨r.earliestPresentationTime, r :: rs⟩
        else ⟨(earliestTime ((r :: rs).take
            (numFragmentsPerSubsegment (rs.length + 1) n.toNat + 1))).toUInt64,
          coalescedEntries (numFragmentsPerSubsegment (rs.length + 1) n.toNat) (r :: rs) ++
            keptReferences n.toNat (r :: rs)⟩ := by
  refine ⟨length_coalescedEntries_le_toNat r rs, ?_⟩
  split_ifs with h
  · rw [doFinalizeSegment_eq, if_pos h]
  have hrefs := references_doFinalizeSegment (n := n) t r rs (by omega) (by omega)
  rw [doFinalizeSegment_eq, if_neg h] at hrefs ⊢
  simp only at hrefs ⊢
  rw [hrefs]
  simp only [SegmentIndex.mk.injEq, and_true, coalescedEntries_eq, List.cons_append,
    List.getD_cons_zero, List.take_succ_cons, runEntry_eq]
  split_ifs <;> rfl

/-- The specification's example: ten fragments lasting 10 each, `num_subsegments_per_sidx = 3`,
`P = 4`. The specification's groups last 40, 40 and 20; `DoFinalizeSegment` leaves 50, 40 and
10, its first run taking five fragments. -/
theorem doFinalizeSegment_ten_fragments :
    (doFinalizeSegment 3 ⟨0, (List.range 10).map fun k =>
        (⟨100, 10, .type1, 0, (10 * k).toUInt64⟩ : SegmentReference)⟩).references.map
        (·.subsegmentDuration) = [50, 40, 10] ∧
      (specSubsegments 4 ((List.range 10).map fun k =>
        (⟨100, 10, .type1, 0, (10 * k).toUInt64⟩ : SegmentReference))).map
          (·.subsegmentDuration) = [40, 40, 20] := by
  decide

/-- When the segment's sizes and durations fit in 32 bits, the references `DoFinalizeSegment`
leaves, and so the segment duration `WriteSegment` reports, count every fragment once and,
besides, every original reference kept after the merged entries. -/
theorem doFinalizeSegment_totals (hn : 0 < n) (hS : n.toNat ≤ rs.length)
    (hsize : totalSize (r :: rs) < 2 ^ 32) (hdur : totalDuration (r :: rs) < 2 ^ 32) :
    totalSize (doFinalizeSegment n ⟨t, r :: rs⟩).references =
        totalSize (r :: rs) + totalSize (keptReferences n.toNat (r :: rs)) ∧
      (segmentDuration (doFinalizeSegment n ⟨t, r :: rs⟩)).toNat =
        totalDuration (r :: rs) + totalDuration (keptReferences n.toNat (r :: rs)) := by
  obtain ⟨hs, hd⟩ := totals_coalescedEntries
    (P := numFragmentsPerSubsegment (rs.length + 1) n.toNat) (Nat.succ_pos _) (r :: rs)
    (List.cons_ne_nil r rs) hsize hdur
  have hkept := totalDuration_keptReferences_le n.toNat (r :: rs)
  rw [toNat_segmentDuration, references_doFinalizeSegment t r rs hn hS, totalSize_append,
    totalDuration_append, hs, hd, Nat.mod_eq_of_lt (by omega)]
  exact ⟨rfl, rfl⟩

theorem doFinalizeSegment_totals_five :
    (0 : Int) < 4 ∧
      (4 : Int).toNat ≤ [(⟨100, 10, .type1, 0, 10⟩ : SegmentReference), ⟨100, 10, .type1, 0, 20⟩,
        ⟨100, 10, .type1, 0, 30⟩, ⟨100, 10, .type1, 0, 40⟩].length ∧
      totalSize [⟨100, 10, .type1, 0, 0⟩, ⟨100, 10, .type1, 0, 10⟩, ⟨100, 10, .type1, 0, 20⟩,
        ⟨100, 10, .type1, 0, 30⟩, ⟨100, 10, .type1, 0, 40⟩] < 2 ^ 32 ∧
      totalDuration [⟨100, 10, .type1, 0, 0⟩, ⟨100, 10, .type1, 0, 10⟩, ⟨100, 10, .type1, 0, 20⟩,
        ⟨100, 10, .type1, 0, 30⟩, ⟨100, 10, .type1, 0, 40⟩] < 2 ^ 32 ∧
      totalSize (doFinalizeSegment 4 ⟨0, [⟨100, 10, .type1, 0, 0⟩, ⟨100, 10, .type1, 0, 10⟩,
          ⟨100, 10, .type1, 0, 20⟩, ⟨100, 10, .type1, 0, 30⟩, ⟨100, 10, .type1, 0, 40⟩]⟩).references =
          totalSize [⟨100, 10, .type1, 0, 0⟩, ⟨100, 10, .type1, 0, 10⟩, ⟨100, 10, .type1, 0, 20⟩,
            ⟨100, 10, .type1, 0, 30⟩, ⟨100, 10, .type1, 0, 40⟩] +
          totalSize (keptReferences (4 : Int).toNat [⟨100, 10, .type1, 0, 0⟩,
            ⟨100, 10, .type1, 0, 10⟩, ⟨100, 10, .type1, 0, 20⟩, ⟨100, 10, .type1, 0, 30⟩,
            ⟨100, 10, .type1, 0, 40⟩]) ∧
        (segmentDuration (doFinalizeSegment 4 ⟨0, [⟨100, 10, .type1, 0, 0⟩,
          ⟨100, 10, .type1, 0, 10⟩, ⟨100, 10, .type1, 0, 20⟩, ⟨100, 10, .type1, 0, 30⟩,
          ⟨100, 10, .type1, 0, 40⟩]⟩)).toNat =
          totalDuration [⟨100, 10, .type1, 0, 0⟩, ⟨100, 10, .type1, 0, 10⟩,
            ⟨100, 10, .type1, 0, 20⟩, ⟨100, 10, .type1, 0, 30⟩, ⟨100, 10, .type1, 0, 40⟩] +
          totalDuration (keptReferences (4 : Int).toNat [⟨100, 10, .type1, 0, 0⟩,
            ⟨100, 10, .type1, 0, 10⟩, ⟨100, 10, .type1, 0, 20⟩, ⟨100, 10, .type1, 0, 30⟩,
            ⟨100, 10, .type1, 0, 40⟩]) :=
  ⟨by decide, by decide, by decide, by decide,
    doFinalizeSegment_totals 0 _ _ (by decide) (by decide) (by decide) (by decide)⟩

/-- Three fragments lasting 10 each, `num_subsegments_per_sidx = 2` (`P = 2`): the loop merges
all three, and the resize to 2 keeps the original second reference, so the durations add up to
40 where the fragments last 30. -/
theorem doFinalizeSegment_three_fragments :
    (doFinalizeSegment 2 ⟨0, [⟨100, 10, .type1, 0, 0⟩, ⟨100, 10, .type1, 0, 10⟩,
        ⟨100, 10, .type1, 0, 20⟩]⟩).references =
        [⟨300, 30, .type1, 0, 0⟩, ⟨100, 10, .type1, 0, 10⟩] ∧
      segmentDuration (doFinalizeSegment 2 ⟨0, [⟨100, 10, .type1, 0, 0⟩,
        ⟨100, 10, .type1, 0, 10⟩, ⟨100, 10, .type1, 0, 20⟩]⟩) = 40 ∧
      totalDuration [⟨100, 10, .type1, 0, 0⟩, ⟨100, 10, .type1, 0, 10⟩,
        ⟨100, 10, .type1, 0, 20⟩] = 30 := by
  decide

end Finalize

/-- When `DoFinalizeSegment` coalesces, its first references are the entries of runs that cut
the references into consecutive nonempty runs: a first of `P + 1` (or all of them), then runs
of `P`, the last possibly shorter. -/
theorem doFinalizeSegment_runs_partition (n : Int) (t : UInt64) (r : SegmentReference)
    (rs : List SegmentReference) (hn : 0 < n) (hS : n.toNat ≤ rs.length) :
    let P := numFragmentsPerSubsegment (rs.length + 1) n.toNat
    (doFinalizeSegment n ⟨t, r :: rs⟩).references.take (coalescedRuns P (r :: rs)).length =
        coalescedEntries P (r :: rs) ∧
      (coalescedRuns P (r :: rs)).flatten = r :: rs ∧
      (∀ g ∈ coalescedRuns P (r :: rs), g ≠ []) ∧
      ((coalescedRuns P (r :: rs)).headD []).length = min (P + 1) (rs.length + 1) ∧
      (∀ g ∈ (coalescedRuns P (r :: rs)).tail, g.length ≤ P) ∧
      ∀ g ∈ (coalescedRuns P (r :: rs)).tail.dropLast, g.length = P := by
  intro P
  have hP : 0 < P := Nat.succ_pos _
  refine ⟨?_, flatten_coalescedRuns _ hP,
    fun g hg => mem_coalescedRuns_ne_nil _ hP (List.cons_ne_nil r rs) hg,
    by simp [coalescedRuns, Nat.add_min_add_right], fun g hg => mem_chunks_length_le P hg,
    fun g hg => length_of_mem_dropLast_chunks _ hP hg⟩
  rw [references_doFinalizeSegment t r rs hn hS, ← length_coalescedEntries,
    List.take_left' rfl]

theorem doFinalizeSegment_runs_partition_five :
    (0 : Int) < 2 ∧ (2 : Int).toNat ≤ 4 ∧
      (doFinalizeSegment 2 ⟨0, [⟨1, 10, .type1, 0, 0⟩, ⟨1, 10, .type1, 0, 10⟩,
          ⟨1, 10, .type1, 0, 20⟩, ⟨1, 10, .type1, 0, 30⟩, ⟨1, 10, .type1, 0, 40⟩]⟩).references.take
          (coalescedRuns 3 [(⟨1, 10, .type1, 0, 0⟩ : SegmentReference), ⟨1, 10, .type1, 0, 10⟩,
            ⟨1, 10, .type1, 0, 20⟩, ⟨1, 10, .type1, 0, 30⟩, ⟨1, 10, .type1, 0, 40⟩]).length =
        coalescedEntries 3 [⟨1, 10, .type1, 0, 0⟩, ⟨1, 10, .type1, 0, 10⟩,
          ⟨1, 10, .type1, 0, 20⟩, ⟨1, 10, .type1, 0, 30⟩, ⟨1, 10, .type1, 0, 40⟩] ∧
      ((coalescedRuns 3 [(⟨1, 10, .type1, 0, 0⟩ : SegmentReference), ⟨1, 10, .type1, 0, 10⟩,
          ⟨1, 10, .type1, 0, 20⟩, ⟨1, 10, .type1, 0, 30⟩, ⟨1, 10, .type1, 0, 40⟩]).headD []).length =
        4 :=
  ⟨by decide, by decide,
    (doFinalizeSegment_runs_partition 2 0 ⟨1, 10, .type1, 0, 0⟩ [⟨1, 10, .type1, 0, 10⟩,
      ⟨1, 10, .type1, 0, 20⟩, ⟨1, 10, .type1, 0, 30⟩, ⟨1, 10, .type1, 0, 40⟩]
      (by decide) (by decide)).1,
    (doFinalizeSegment_runs_partition 2 0 ⟨1, 10, .type1, 0, 0⟩ [⟨1, 10, .type1, 0, 10⟩,
      ⟨1, 10, .type1, 0, 20⟩, ⟨1, 10, .type1, 0, 30⟩, ⟨1, 10, .type1, 0, 40⟩]
      (by decide) (by decide)).2.2.2.1⟩

end EdashPackager.Media.Mp4
