import EdashPackager.Media.Formats.Mp4.SegmentIndex

/-!
# `MultiSegmentSegmenter::DoFinalizeSegment`

When a segment is finalized its `sidx` holds one reference per fragment. For a positive
`num_subsegments_per_sidx` (`S` below) and `P = (N - 1) / S + 1` fragments a subsegment above
one, `DoFinalizeSegment` coalesces the `N` references in place: one loop over the vector merges
each reference into the open subsegment entry at `subseg_index`, and closes that entry when
`frag_index` reaches `P`; the vector is then resized to `S`.

The loop is embedded with its variables as an explicit state and a fuel argument.
`coalesceRuns` is the same computation as a recursion over the references still to visit,
with the open entry as a parameter, and `coalesceLoop_atRun` proves that the loop computes it
from every state of the shape the loop keeps. `doFinalizeSegment_eq` then gives
`DoFinalizeSegment` on every index in terms of `coalesceRuns`.
-/

namespace EdashPackager.Media.Mp4

/-! ### The loop -/

/-- Lines 202–212: reference `r` merged into the open entry `a.1`, with the code's wrapping
`uint32_t` `+=`; `a.2` is `first_sap_time`, moved to `r`'s SAP when `r` brings the first known
SAP type. -/
def absorb (a : SegmentReference × UInt64) (r : SegmentReference) : SegmentReference × UInt64 :=
  let e : SegmentReference :=
    { a.1 with
      referencedSize := a.1.referencedSize + r.referencedSize
      subsegmentDuration := a.1.subsegmentDuration + r.subsegmentDuration
      earliestPresentationTime := min a.1.earliestPresentationTime r.earliestPresentationTime }
  if e.sapType = .typeUnknown ∧ r.sapType ≠ .typeUnknown then
    ({ e with sapType := r.sapType }, r.sapTime)
  else (e, a.2)

/-- Lines 215–218: a subsegment closed with a known SAP type gets `first_sap_time` less its
earliest presentation time, a `uint64_t` difference stored in the `uint32_t` field. -/
def closeSubsegment (a : SegmentReference × UInt64) : SegmentReference :=
  if a.1.sapType ≠ .typeUnknown then
    { a.1 with sapDeltaTime := (a.2 - a.1.earliestPresentationTime).toUInt32 }
  else a.1

/-- The variables of the coalescing loop. -/
structure CoalesceState where
  refs : List SegmentReference
  i : Nat
  fragIndex : Nat
  subsegIndex : Nat
  firstSapTime : UInt64
  deriving DecidableEq, Repr

/-- One pass of the loop body at `i` (lines 202–225), `true` when it leaves by `break`. The
code reads `refs[i]` again after writing `refs[subseg_index]`; the two never coincide
(`subseg_index < i` on every pass, see `CoalesceState.Safe`), so it is read once here. -/
def coalesceBody (numFragments numFragmentsPerSubsegment : Nat) (s : CoalesceState) :
    Bool × CoalesceState :=
  let a := absorb (s.refs.getD s.subsegIndex default, s.firstSapTime) (s.refs.getD s.i default)
  if numFragmentsPerSubsegment ≤ s.fragIndex + 1 then
    let refs := s.refs.set s.subsegIndex (closeSubsegment a)
    if numFragments ≤ s.i + 1 then
      (true, ⟨refs, s.i + 1, s.fragIndex + 1, s.subsegIndex, a.2⟩)
    else
      let r := refs.getD (s.i + 1) default
      (false, ⟨refs.set (s.subsegIndex + 1) r, s.i + 1, 1, s.subsegIndex + 1, r.sapTime⟩)
  else
    (false, ⟨s.refs.set s.subsegIndex a.1, s.i, s.fragIndex + 1, s.subsegIndex, a.2⟩)

/-- The loop `for (i = 1; i < num_fragments; ++i)` of lines 201–226, for at most `fuel`
passes. -/
def coalesceLoop (numFragments numFragmentsPerSubsegment : Nat) :
    Nat → CoalesceState → CoalesceState
  | 0, s => s
  | fuel + 1, s =>
    if s.i < numFragments then
      let r := coalesceBody numFragments numFragmentsPerSubsegment s
      if r.1 then r.2
      else coalesceLoop numFragments numFragmentsPerSubsegment fuel { r.2 with i := r.2.i + 1 }
    else s

/-- `num_fragments_per_subsegment` (lines 191–192): `num_fragments / num_subsegments_per_sidx`
rounded up, for at least one fragment. -/
def numFragmentsPerSubsegment (numFragments numSubsegmentsPerSidx : Nat) : Nat :=
  (numFragments - 1) / numSubsegmentsPerSidx + 1

/-- `DoFinalizeSegment` (lines 176–232) up to its call of `WriteSegment`. The loop gets
`num_fragments` passes, more than it makes; an empty index, which the code is never given, reads
a default `references[0]`. -/
def doFinalizeSegment (numSubsegmentsPerSidx : Int) (sidx : SegmentIndex) : SegmentIndex :=
  let sidx : SegmentIndex :=
    { sidx with
      earliestPresentationTime := (sidx.references.getD 0 default).earliestPresentationTime }
  if numSubsegmentsPerSidx ≤ 0 then sidx
  else
    let numFragments := sidx.references.length
    let P := numFragmentsPerSubsegment numFragments numSubsegmentsPerSidx.toNat
    if P ≤ 1 then sidx
    else
      let refs := sidx.references
      let s := coalesceLoop numFragments P numFragments
        ⟨refs, 1, 0, 0, (refs.getD 0 default).sapTime⟩
      let refs := resize s.refs numSubsegmentsPerSidx.toNat default
      ⟨(refs.getD 0 default).earliestPresentationTime, refs⟩

/-- `segment_duration` in `WriteSegment` (lines 283–287): the `uint64_t` sum of the subsegment
durations of the `sidx` references. -/
def segmentDuration (sidx : SegmentIndex) : UInt64 :=
  sidx.references.foldl (fun d r => d + r.subsegmentDuration.toUInt64) 0

lemma toNat_foldl_duration (d : UInt64) (l : List SegmentReference) :
    (l.foldl (fun d r => d + r.subsegmentDuration.toUInt64) d).toNat =
      (d.toNat + totalDuration l) % 2 ^ 64 := by
  induction l generalizing d with
  | nil => simp [Nat.mod_eq_of_lt d.toNat_lt]
  | cons r l ih =>
    rw [List.foldl_cons, ih, UInt64.toNat_add, UInt32.toUInt64_toNat, totalDuration_cons,
      UInt64.size]
    omega

lemma toNat_segmentDuration (sidx : SegmentIndex) :
    (segmentDuration sidx).toNat = totalDuration sidx.references % 2 ^ 64 := by
  simpa using toNat_foldl_duration 0 sidx.references

/-! ### The loop as a recursion over the references -/

/-- The entries the loop leaves from the open entry `a` with `frag_index = k`, over the
references `xs` it has still to visit, for `P` fragments a subsegment. -/
def coalesceRuns (P : Nat) (a : SegmentReference × UInt64) (k : Nat) :
    List SegmentReference → List SegmentReference
  | [] => [a.1]
  | [x] => if P ≤ k + 1 then [closeSubsegment (absorb a x)] else [(absorb a x).1]
  | x :: y :: ys =>
    if P ≤ k + 1 then closeSubsegment (absorb a x) :: coalesceRuns P (y, y.sapTime) 1 ys
    else coalesceRuns P (absorb a x) (k + 1) (y :: ys)

section Runs

variable (P : Nat) (a : SegmentReference × UInt64) (k : Nat) (x y : SegmentReference)
  (ys : List SegmentReference)

@[simp] lemma coalesceRuns_nil : coalesceRuns P a k [] = [a.1] := rfl

lemma coalesceRuns_cons_of_lt (h : k + 1 < P) :
    coalesceRuns P a k (x :: ys) = coalesceRuns P (absorb a x) (k + 1) ys := by
  cases ys <;> simp [coalesceRuns, Nat.not_le.mpr h]

lemma coalesceRuns_singleton_of_le (h : P ≤ k + 1) :
    coalesceRuns P a k [x] = [closeSubsegment (absorb a x)] := by
  simp [coalesceRuns, h]

lemma coalesceRuns_cons_cons_of_le (h : P ≤ k + 1) :
    coalesceRuns P a k (x :: y :: ys) =
      closeSubsegment (absorb a x) :: coalesceRuns P (y, y.sapTime) 1 ys := by
  simp [coalesceRuns, h]

end Runs

/-! ### The loop computes the recursion -/

/-- The loop's state at index `i` with the closed entries `done` and the open entry `a`, at
`subseg_index = done.length` with `frag_index = k`: the vector holds `done`, the open entry,
and past them the original references `l`. -/
def CoalesceState.atRun (l done : List SegmentReference) (a : SegmentReference × UInt64)
    (k i : Nat) : CoalesceState :=
  ⟨done ++ a.1 :: l.drop (done.length + 1), i, k, done.length, a.2⟩

section Step

variable {N P fuel : Nat} {s : CoalesceState}

lemma coalesceLoop_succ_of_break (h : s.i < N) (hb : (coalesceBody N P s).1 = true) :
    coalesceLoop N P (fuel + 1) s = (coalesceBody N P s).2 := by
  simp [coalesceLoop, h, hb]

lemma coalesceLoop_succ_of_continue {s' : CoalesceState} (h : s.i < N)
    (hb : coalesceBody N P s = (false, s')) :
    coalesceLoop N P (fuel + 1) s = coalesceLoop N P fuel { s' with i := s'.i + 1 } := by
  simp [coalesceLoop, h, hb]

end Step

section Loop

variable {l done : List SegmentReference} {i : Nat} (P : Nat) (a : SegmentReference × UInt64)
  (k : Nat)

/-- A pass that does not close the open entry merges `refs[i]` into it. -/
lemma coalesceBody_of_lt (hk : k + 1 < P) (hi : done.length < i) :
    coalesceBody l.length P (CoalesceState.atRun l done a k i) =
      (false, CoalesceState.atRun l done (absorb a (l.getD i default)) (k + 1) i) := by
  simp only [coalesceBody, CoalesceState.atRun, getD_middle, getD_splice_of_lt _ _ _ _ hi,
    Prod.mk.eta, Nat.not_le.mpr hk, if_false, set_middle]

/-- A pass at the last index that closes the open entry leaves the loop. -/
lemma coalesceBody_of_le_of_last (hk : P ≤ k + 1) (hi : done.length < i)
    (hl : l.length ≤ i + 1) :
    (coalesceBody l.length P (CoalesceState.atRun l done a k i)).1 = true ∧
      (coalesceBody l.length P (CoalesceState.atRun l done a k i)).2.refs =
        done ++ closeSubsegment (absorb a (l.getD i default)) :: l.drop (done.length + 1) := by
  simp only [coalesceBody, CoalesceState.atRun, getD_middle, getD_splice_of_lt _ _ _ _ hi,
    Prod.mk.eta, hk, hl, if_true, set_middle, and_self]

/-- A pass before the last index that closes the open entry opens the next one with
`refs[i + 1]`. -/
lemma coalesceBody_of_le (hk : P ≤ k + 1) (hi : done.length < i) (hl : i + 1 < l.length) :
    coalesceBody l.length P (CoalesceState.atRun l done a k i) =
      (false, CoalesceState.atRun l (done ++ [closeSubsegment (absorb a (l.getD i default))])
        (l.getD (i + 1) default, (l.getD (i + 1) default).sapTime) 1 (i + 1)) := by
  simp only [coalesceBody, CoalesceState.atRun, getD_middle, getD_splice_of_lt _ _ _ _ hi,
    getD_splice_of_lt _ _ _ _ (show done.length < i + 1 by omega), Prod.mk.eta, hk, if_true,
    Nat.not_le.mpr hl, if_false, set_middle, set_splice_succ _ _ _ _ (show done.length + 1 < l.length by omega)]
  simp

/-- The loop, from a state of the shape `atRun` with at least as much fuel as references
remain, computes `coalesceRuns` over those references and leaves the rest of the vector as it
was. -/
theorem coalesceLoop_atRun (fuel : Nat) (hi : i ≤ l.length) (hj : done.length < i)
    (hfuel : l.length - i ≤ fuel) :
    (coalesceLoop l.length P fuel (CoalesceState.atRun l done a k i)).refs =
      done ++ coalesceRuns P a k (l.drop i) ++
        l.drop (done.length + (coalesceRuns P a k (l.drop i)).length) := by
  induction fuel generalizing done a k i with
  | zero =>
    obtain rfl : i = l.length := by omega
    simp [coalesceLoop, CoalesceState.atRun]
  | succ fuel ih =>
    by_cases hlt : i < l.length
    swap
    · obtain rfl : i = l.length := by omega
      simp [coalesceLoop, CoalesceState.atRun]
    have hdrop : ∀ j, j < l.length → l.drop j = l.getD j default :: l.drop (j + 1) := by
      intro j hj
      rw [List.drop_eq_getElem_cons hj]
      simp [List.getElem?_eq_getElem hj]
    rw [hdrop i hlt]
    by_cases hk : P ≤ k + 1
    · by_cases hl : l.length ≤ i + 1
      · -- the pass closes the last entry and breaks
        obtain ⟨hbreak, hrefs⟩ := coalesceBody_of_le_of_last P a k hk hj hl
        rw [coalesceLoop_succ_of_break hlt hbreak, hrefs, List.drop_eq_nil_of_le hl,
          coalesceRuns_singleton_of_le P a k _ hk]
        simp
      · -- the pass closes the entry and opens the next one
        rw [coalesceLoop_succ_of_continue hlt (coalesceBody_of_le P a k hk hj (by omega)),
          hdrop (i + 1) (by omega), coalesceRuns_cons_cons_of_le P a k _ _ _ hk]
        refine (@ih (done ++ [_]) (i + 1 + 1) _ 1 (by omega) (by simp; omega)
          (by omega)).trans ?_
        simp [Nat.add_assoc, Nat.add_comm 1]
    · -- the pass merges `refs[i]` into the open entry
      rw [coalesceLoop_succ_of_continue hlt (coalesceBody_of_lt P a k (by omega) hj),
        coalesceRuns_cons_of_lt P a k _ _ (by omega)]
      exact ih (i := i + 1) _ (k + 1) (by omega) (by omega) (by omega)

end Loop

lemma length_coalesceBody (N P : Nat) (s : CoalesceState) :
    (coalesceBody N P s).2.refs.length = s.refs.length := by
  unfold coalesceBody
  split_ifs <;> simp

lemma length_coalesceLoop (N P fuel : Nat) (s : CoalesceState) :
    (coalesceLoop N P fuel s).refs.length = s.refs.length := by
  induction fuel generalizing s with
  | zero => rfl
  | succ fuel ih =>
    simp only [coalesceLoop]
    split_ifs <;> simp [ih, length_coalesceBody]

/-! ### What every pass keeps -/

/-- What the loop keeps between passes over the original references `l`: `subseg_index < i`,
the references from `subseg_index + 1` on are the original ones, and every index is in bounds. -/
structure CoalesceState.Safe (l : List SegmentReference) (s : CoalesceState) : Prop where
  subsegIndex_lt : s.subsegIndex < s.i
  i_le : s.i ≤ l.length
  length_refs : s.refs.length = l.length
  drop_refs : s.refs.drop (s.subsegIndex + 1) = l.drop (s.subsegIndex + 1)

section Safe

variable {l : List SegmentReference} {P : Nat}

/-- Every state the loop passes through from a safe one is safe. -/
lemma safe_coalesceLoop {s : CoalesceState} (h : s.Safe l) (fuel : Nat) :
    (coalesceLoop l.length P fuel s).Safe l := by
  induction fuel generalizing s with
  | zero => exact h
  | succ fuel ih =>
    by_cases hi : s.i < l.length
    swap
    · simpa [coalesceLoop, hi] using h
    obtain ⟨hj, -, hlen, hdrop⟩ := h
    have hset : ∀ c, (s.refs.set s.subsegIndex c).drop (s.subsegIndex + 1) =
        l.drop (s.subsegIndex + 1) := fun c => by
      rw [List.drop_set_of_lt _ _ (Nat.lt_succ_self _), hdrop]
    simp only [coalesceLoop, hi, if_true]
    unfold coalesceBody
    by_cases hk : P ≤ s.fragIndex + 1
    · by_cases hn : l.length ≤ s.i + 1
      · -- the pass closes the last entry and breaks
        simp only [hk, hn, if_true]
        exact ⟨Nat.lt_succ_of_lt hj, by dsimp only; omega, by simp [hlen], hset _⟩
      · -- the pass closes the entry and opens the next one at `i + 1`
        simp only [hk, hn, if_true, if_false, Bool.false_eq_true]
        refine ih ⟨by dsimp only; omega, by dsimp only; omega, by simp [hlen], ?_⟩
        have hd := congrArg (List.drop 1) (hset (closeSubsegment
          (absorb (s.refs.getD s.subsegIndex default, s.firstSapTime) (s.refs.getD s.i default))))
        simp only [List.drop_drop] at hd
        rw [List.drop_set_of_lt _ _ (Nat.lt_succ_self _), hd]
    · -- the pass merges `refs[i]` into the open entry
      simp only [hk, if_false, Bool.false_eq_true]
      exact ih ⟨by dsimp only; omega, by dsimp only; omega, by simp [hlen], hset _⟩

end Safe

/-- After any number of passes of `DoFinalizeSegment`'s loop, `subseg_index < i ≤ num_fragments`,
so every index it reads or writes is inside the vector and the references still to be read are
the original ones. -/
theorem coalesceLoop_safe (P fuel : Nat) (r : SegmentReference) (rs : List SegmentReference) :
    (coalesceLoop (r :: rs).length P fuel ⟨r :: rs, 1, 0, 0, r.sapTime⟩).Safe (r :: rs) :=
  safe_coalesceLoop (l := r :: rs) (s := ⟨r :: rs, 1, 0, 0, r.sapTime⟩)
    ⟨Nat.zero_lt_one, Nat.succ_le_succ (Nat.zero_le _), rfl, rfl⟩ fuel

/-! ### `DoFinalizeSegment` -/

/-- `DoFinalizeSegment` on the references `r :: rs`: unchanged for `S ≤ 0` or `P ≤ 1`, otherwise
the entries of `coalesceRuns` and the original references past them, cut to `S`. -/
theorem doFinalizeSegment_eq (n : Int) (t : UInt64) (r : SegmentReference)
    (rs : List SegmentReference) :
    doFinalizeSegment n ⟨t, r :: rs⟩ =
      if n ≤ 0 ∨ rs.length < n.toNat then ⟨r.earliestPresentationTime, r :: rs⟩
      else
        let E := coalesceRuns (numFragmentsPerSubsegment (rs.length + 1) n.toNat) (r, r.sapTime) 0 rs
        let refs := (E ++ (r :: rs).drop E.length).take n.toNat
        ⟨(refs.getD 0 default).earliestPresentationTime, refs⟩ := by
  by_cases hn : n ≤ 0
  · rw [if_pos (Or.inl hn)]
    simp [doFinalizeSegment, hn]
  by_cases hS : rs.length < n.toNat
  · rw [if_pos (Or.inr hS)]
    simp [doFinalizeSegment, numFragmentsPerSubsegment, hn, Nat.div_eq_of_lt hS]
  rw [if_neg (not_or.mpr ⟨hn, hS⟩)]
  have hP : ¬(numFragmentsPerSubsegment (rs.length + 1) n.toNat ≤ 1) := by
    have : 0 < rs.length / n.toNat := Nat.div_pos (by omega) (by omega)
    simp only [numFragmentsPerSubsegment, Nat.add_sub_cancel]
    omega
  have hinit : (⟨r :: rs, 1, 0, 0, r.sapTime⟩ : CoalesceState) =
      CoalesceState.atRun (r :: rs) [] (r, r.sapTime) 0 1 := rfl
  have hloop := @coalesceLoop_atRun (r :: rs) [] 1
    (numFragmentsPerSubsegment (rs.length + 1) n.toNat) (r, r.sapTime) 0 (rs.length + 1)
    (by simp) (by simp) (by simp)
  have hlen := length_coalesceLoop (rs.length + 1)
    (numFragmentsPerSubsegment (rs.length + 1) n.toNat) (rs.length + 1)
    (CoalesceState.atRun (r :: rs) [] (r, r.sapTime) 0 1)
  simp only [List.length_cons] at hloop
  simp only [doFinalizeSegment, hn, if_false, List.length_cons, hP, List.getD_cons_zero, hinit]
  rw [resize_of_le _ _ _ (by rw [hlen]; simp [CoalesceState.atRun]; omega), hloop]
  simp only [List.nil_append, List.drop_succ_cons, List.drop_zero, List.length_nil, Nat.zero_add]

end EdashPackager.Media.Mp4
