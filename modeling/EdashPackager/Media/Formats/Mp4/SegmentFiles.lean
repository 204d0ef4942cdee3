import EdashPackager.Media.Formats.Mp4.MultiSegmentSegmenter

/-!
# Segment files and listener calls of `MultiSegmentSegmenter`

`DoInitialize` writes the init segment, `ftyp` then `moov`, to the output file, and
`WriteSegment`, which ends `DoFinalizeSegment`, writes each media segment: appended to the output
file when there is no segment template, else to a file of its own, named from the template and
the segment number. Once a segment is written it reports the segment's duration to
`UpdateProgress` and the segment to the muxer listener.

The file layer, `Status`, the box writers and `GetSegmentName` are not among the sources. The
files are a map from names to contents, and what the file layer does on each call (whether
`File::Open` returns a file, how far each `WriteToFile` gets, whether `Close` succeeds) is an
input of the model, so that the results below hold for every pattern of I/O failures. The box
writers, `GetSegmentName` and the listener are parameters, bundled in `SegmenterContext`.
-/

namespace EdashPackager.Media

/-- `error::Code`, as far as the segmenter's sources use it. -/
inductive ErrorCode
  | ok | fileFailure
  deriving DecidableEq, Repr

/-- `Status`: an error code and its message. -/
structure Status where
  errorCode : ErrorCode
  errorMessage : String
  deriving DecidableEq, Repr

namespace Status

def OK : Status := ⟨.ok, ""⟩

def ok (s : Status) : Bool := s.errorCode == .ok

@[simp] lemma ok_OK : OK.ok = true := rfl

@[simp] lemma ok_fileFailure (m : String) : (⟨.fileFailure, m⟩ : Status).ok = false := rfl

end Status

/-! ### The file layer -/

/-- The modes `File::Open` is called with: `"w"` and `"a"`. -/
inductive OpenMode
  | write | append
  deriving DecidableEq, Repr

/-- The files once `File::Open(name, mode)` has returned a file: `"w"` empties it, `"a"` keeps
it. -/
def openFile (files : String → List Byte) (name : String) : OpenMode → String → List Byte
  | .write => Function.update files name []
  | .append => files

@[simp] lemma update_openFile (files : String → List Byte) (name : String) (mode : OpenMode)
    (contents : List Byte) :
    Function.update (openFile files name mode) name contents =
      Function.update files name contents := by
  cases mode <;> simp [openFile]

/-- How the file layer carries out one `BufferWriter::WriteToFile`: every byte written, or a
failure, reported as a `FILE_FAILURE` with `message`, after the first `written` bytes. -/
inductive WriteResult
  | complete
  | failed (written : Nat) (message : String)
  deriving DecidableEq, Repr

namespace WriteResult

def isComplete : WriteResult → Bool
  | complete => true
  | failed _ _ => false

def status : WriteResult → Status
  | complete => Status.OK
  | failed _ message => ⟨.fileFailure, message⟩

/-- The bytes of `buffer` that reach the file. -/
def bytes (buffer : List Byte) : WriteResult → List Byte
  | complete => buffer
  | failed written _ => buffer.take written

@[simp] lemma ok_status (r : WriteResult) : r.status.ok = r.isComplete := by
  cases r <;> rfl

lemma bytes_of_isComplete {r : WriteResult} (h : r.isComplete) (buffer : List Byte) :
    r.bytes buffer = buffer := by
  cases r
  · rfl
  · cases h

end WriteResult

/-- `BufferWriter::WriteToFile`: the buffer goes to the end of the file, as far as the file layer
gets. -/
def writeToFile (files : String → List Byte) (name : String) (buffer : List Byte)
    (r : WriteResult) : Status × (String → List Byte) :=
  (r.status, Function.update files name (files name ++ r.bytes buffer))

end EdashPackager.Media

namespace EdashPackager.Media.Mp4

/-! ### The segmenter and its collaborators -/

/-- The fields of `MuxerOptions` the segmenter reads. -/
structure MuxerOptions where
  outputFileName : String
  segmentTemplate : String
  numSubsegmentsPerSidx : Int
  bandwidth : Nat

/-- What `MultiSegmentSegmenter` takes from outside the sources: its options, `GetSegmentName`
(template, earliest presentation time, segment number, bandwidth), the bytes the box writers
produce for `ftyp`, `moov`, `styp` and a `sidx`, and whether a muxer listener is set. -/
structure SegmenterContext where
  options : MuxerOptions
  getSegmentName : String → UInt64 → Nat → Nat → String
  ftyp : List Byte
  moov : List Byte
  styp : List Byte
  writeSidx : SegmentIndex → List Byte
  hasListener : Bool

/-- The calls the segmenter makes outward: `UpdateProgress`, the two listener calls of
`WriteSegment`, and warnings to the log. -/
inductive SegmenterEvent
  | updateProgress (progress : UInt64)
  | sampleDurationReady (sampleDuration : Nat)
  | newSegment (fileName : String) (startTime duration : UInt64) (segmentFileSize : Nat)
  | warning (message : String)
  deriving DecidableEq, Repr

/-- What a `MultiSegmentSegmenter` call changes: `num_segments_`, the files, and the calls made
so far. -/
structure MultiSegmentSegmenter where
  numSegments : Nat
  files : String → List Byte
  events : List SegmenterEvent

/-- The constructor: `num_segments_(0)`, over the files as they are. -/
def MultiSegmentSegmenter.new (files : String → List Byte) : MultiSegmentSegmenter :=
  ⟨0, files, []⟩

/-- What the file layer does during one `WriteSegment`: whether `File::Open` returns a file, how
the writes of the box buffer and of the fragment buffer end, and whether `Close` succeeds. -/
structure SegmentFileOutcome where
  opened : Bool
  bufferWrite : WriteResult
  fragmentWrite : WriteResult
  closed : Bool
  deriving DecidableEq, Repr

/-- Whether the open and both writes succeed, the calls whose results decide the status. -/
def SegmentFileOutcome.succeeds (o : SegmentFileOutcome) : Bool :=
  o.opened && o.bufferWrite.isComplete && o.fragmentWrite.isComplete

/-- The bytes one `WriteSegment` gets into its file: the box buffer and then the fragments, as
far as the writes get. -/
def SegmentFileOutcome.writtenBytes (o : SegmentFileOutcome) (buffer fragmentBuffer : List Byte) :
    List Byte :=
  o.bufferWrite.bytes buffer ++
    if o.bufferWrite.isComplete then o.fragmentWrite.bytes fragmentBuffer else []

/-- `LOG(WARNING)` after a failed `Close`. -/
def closeWarning (closed : Bool) (fileName : String) : List SegmenterEvent :=
  if closed then [] else [.warning ("Failed to close the file properly: " ++ fileName)]

/-- The branch of `WriteSegment` on the segment template (lines 245–264): the file's name and
open mode, the status of a failed open, and `num_segments_` after the call, which counts the
segment before the file is opened. -/
structure SegmentTarget where
  fileName : String
  mode : OpenMode
  openFailure : Status
  numSegments : Nat

def segmentTarget (ctx : SegmenterContext) (n : Nat) (sidx : SegmentIndex) : SegmentTarget :=
  if ctx.options.segmentTemplate.isEmpty then
    ⟨ctx.options.outputFileName, .append,
      ⟨.fileFailure, "Cannot open file for append " ++ ctx.options.outputFileName⟩, n⟩
  else
    let fileName := ctx.getSegmentName ctx.options.segmentTemplate
      sidx.earliestPresentationTime n ctx.options.bandwidth
    ⟨fileName, .write, ⟨.fileFailure, "Cannot open file for write " ++ fileName⟩, n + 1⟩

/-- The box buffer of a segment: `styp` when the segment has a file of its own, then the `sidx`
unless `num_subsegments_per_sidx` is negative (lines 263–268). -/
def segmentBoxes (ctx : SegmenterContext) (sidx : SegmentIndex) : List Byte :=
  (if ctx.options.segmentTemplate.isEmpty then [] else ctx.styp) ++
    if 0 ≤ ctx.options.numSubsegmentsPerSidx then ctx.writeSidx sidx else []

/-- The calls after a segment is written (lines 283–295): `UpdateProgress` with the segment's
duration, then, with a listener, `OnSampleDurationReady` and `OnNewSegment`. -/
def segmentReport (ctx : SegmenterContext) (fileName : String) (sidx : SegmentIndex)
    (sampleDuration segmentSize : Nat) : List SegmenterEvent :=
  .updateProgress (segmentDuration sidx) ::
    if ctx.hasListener then
      [.sampleDurationReady sampleDuration,
        .newSegment fileName sidx.earliestPresentationTime (segmentDuration sidx) segmentSize]
    else []

/-- `WriteSegment` (lines 237–298) on the `sidx` as `DoFinalizeSegment` leaves it, the fragment
buffer, and the segmenter's `sample_duration()`. -/
def writeSegment (ctx : SegmenterContext) (sidx : SegmentIndex) (fragmentBuffer : List Byte)
    (sampleDuration : Nat) (o : SegmentFileOutcome) (s : MultiSegmentSegmenter) :
    Status × MultiSegmentSegmenter :=
  let t := segmentTarget ctx s.numSegments sidx
  if !o.opened then (t.openFailure, { s with numSegments := t.numSegments })
  else
    let buffer := segmentBoxes ctx sidx
    let segmentSize := buffer.length + fragmentBuffer.length
    let r := writeToFile (openFile s.files t.fileName t.mode) t.fileName buffer o.bufferWrite
    let r := if r.1.ok then writeToFile r.2 t.fileName fragmentBuffer o.fragmentWrite else r
    let events := s.events ++ closeWarning o.closed t.fileName
    if !r.1.ok then (r.1, ⟨t.numSegments, r.2, events⟩)
    else
      (Status.OK, ⟨t.numSegments, r.2,
        events ++ segmentReport ctx t.fileName sidx sampleDuration segmentSize⟩)

/-- `DoInitialize` (lines 151–169): the init segment, `ftyp` then `moov`, in the output file
opened with `"w"`. -/
def doInitialize (ctx : SegmenterContext) (opened : Bool) (write : WriteResult) (closed : Bool)
    (s : MultiSegmentSegmenter) : Status × MultiSegmentSegmenter :=
  let name := ctx.options.outputFileName
  if !opened then (⟨.fileFailure, "Cannot open file for write " ++ name⟩, s)
  else
    let r := writeToFile (openFile s.files name .write) name (ctx.ftyp ++ ctx.moov) write
    (r.1, { s with files := r.2, events := s.events ++ closeWarning closed name })

/-- One segment as the segmenter finalizes it: the `sidx` it built with one reference per
fragment, the fragments' bytes, `sample_duration()`, and what the file layer does. -/
structure SegmentInput where
  sidx : SegmentIndex
  fragmentBuffer : List Byte
  sampleDuration : Nat
  outcome : SegmentFileOutcome

def finalizedSidx (ctx : SegmenterContext) (seg : SegmentInput) : SegmentIndex :=
  doFinalizeSegment ctx.options.numSubsegmentsPerSidx seg.sidx

/-- `DoFinalizeSegment`, which coalesces the references and returns `WriteSegment()`. -/
def finalizeSegment (ctx : SegmenterContext) (seg : SegmentInput) (s : MultiSegmentSegmenter) :
    Status × MultiSegmentSegmenter :=
  writeSegment ctx (finalizedSidx ctx seg) seg.fragmentBuffer seg.sampleDuration seg.outcome s

def finalizeSegments (ctx : SegmenterContext) :
    List SegmentInput → MultiSegmentSegmenter → List Status × MultiSegmentSegmenter
  | [], s => ([], s)
  | seg :: segs, s =>
    let r := finalizeSegment ctx seg s
    let rest := finalizeSegments ctx segs r.2
    (r.1 :: rest.1, rest.2)

/-- A segmenter's life: constructed over `files`, initialized, with the file layer's outcome for
the init segment, then finalizing `segs` in turn. -/
def segmenterRun (ctx : SegmenterContext) (files : String → List Byte) (initOpened : Bool)
    (initWrite : WriteResult) (initClosed : Bool) (segs : List SegmentInput) :
    List Status × MultiSegmentSegmenter :=
  let init := doInitialize ctx initOpened initWrite initClosed (.new files)
  let run := finalizeSegments ctx segs init.2
  (init.1 :: run.1, run.2)

/-! ### One call of `WriteSegment` -/

section WriteSegment

variable (ctx : SegmenterContext) (sidx : SegmentIndex) (fragmentBuffer : List Byte)
  (sampleDuration : Nat) (o : SegmentFileOutcome) (s : MultiSegmentSegmenter)

lemma writeSegment_of_not_opened (h : o.opened = false) :
    writeSegment ctx sidx fragmentBuffer sampleDuration o s =
      ((segmentTarget ctx s.numSegments sidx).openFailure,
        { s with numSegments := (segmentTarget ctx s.numSegments sidx).numSegments }) := by
  simp [writeSegment, h]

/-- Once the file is open: the status is the first failing write's, the file gets what the
writes get into it, `Close` only adds its warning, and the segment is reported when both writes
complete. -/
lemma writeSegment_of_opened (h : o.opened = true) :
    writeSegment ctx sidx fragmentBuffer sampleDuration o s =
      let t := segmentTarget ctx s.numSegments sidx
      (if o.bufferWrite.isComplete then o.fragmentWrite.status else o.bufferWrite.status,
        ⟨t.numSegments,
          Function.update s.files t.fileName (openFile s.files t.fileName t.mode t.fileName ++
            o.writtenBytes (segmentBoxes ctx sidx) fragmentBuffer),
          s.events ++ closeWarning o.closed t.fileName ++
            if o.succeeds then
              segmentReport ctx t.fileName sidx sampleDuration
                ((segmentBoxes ctx sidx).length + fragmentBuffer.length)
            else []⟩) := by
  obtain ⟨opened, bufferWrite, fragmentWrite, closed⟩ := o
  subst h
  cases bufferWrite <;> cases fragmentWrite <;>
    simp [writeSegment, writeToFile, SegmentFileOutcome.writtenBytes,
      SegmentFileOutcome.succeeds, WriteResult.status, WriteResult.bytes, WriteResult.isComplete]

/-- `WriteSegment` returns OK exactly when the open and both writes succeed. -/
lemma ok_writeSegment :
    (writeSegment ctx sidx fragmentBuffer sampleDuration o s).1.ok = o.succeeds := by
  obtain ⟨opened, bufferWrite, fragmentWrite, closed⟩ := o
  cases opened
  · simp [writeSegment_of_not_opened, SegmentFileOutcome.succeeds, segmentTarget]
    split <;> rfl
  · rw [writeSegment_of_opened _ _ _ _ _ _ rfl]
    cases bufferWrite <;> cases fragmentWrite <;> rfl

end WriteSegment

/-! ### Runs of segments -/

/-- The bytes of a segment as its file should hold them: its box buffer, then its fragments. -/
def segmentBytes (ctx : SegmenterContext) (seg : SegmentInput) : List Byte :=
  segmentBoxes ctx (finalizedSidx ctx seg) ++ seg.fragmentBuffer

/-- The bytes finalizing `seg` gets into its file: none when the open fails. -/
def writtenSegmentBytes (ctx : SegmenterContext) (seg : SegmentInput) : List Byte :=
  if seg.outcome.opened then
    seg.outcome.writtenBytes (segmentBoxes ctx (finalizedSidx ctx seg)) seg.fragmentBuffer
  else []

/-- The arguments of the `OnNewSegment` calls among `events`, in order. -/
def reportedSegments (events : List SegmenterEvent) : List (String × UInt64 × UInt64 × Nat) :=
  events.filterMap fun e =>
    match e with
    | .newSegment fileName startTime duration size => some (fileName, startTime, duration, size)
    | _ => none

/-- What `OnNewSegment` should receive for `seg` as segment number `n`: its file, the start time
and duration of its index, and its size. -/
def segmentRecord (ctx : SegmenterContext) (n : Nat) (seg : SegmentInput) :
    String × UInt64 × UInt64 × Nat :=
  ((segmentTarget ctx n (finalizedSidx ctx seg)).fileName,
    (finalizedSidx ctx seg).earliestPresentationTime, segmentDuration (finalizedSidx ctx seg),
    (segmentBytes ctx seg).length)

def reportedSizes (events : List SegmenterEvent) : List Nat :=
  (reportedSegments events).map (·.2.2.2)

/-- The bytes of `file` in the `i`-th of the ranges of lengths `sizes` laid end to end from
`offset`: where a reader of the listener's reports looks for segment `i`. -/
def rangeAt (file : List Byte) (offset : Nat) (sizes : List Nat) (i : Nat) : List Byte :=
  (file.drop (offset + (sizes.take i).sum)).take (sizes.getD i 0)

section Runs

variable (ctx : SegmenterContext)

@[simp] lemma reportedSegments_append (l l' : List SegmenterEvent) :
    reportedSegments (l ++ l') = reportedSegments l ++ reportedSegments l' := by
  simp [reportedSegments]

@[simp] lemma reportedSegments_closeWarning (closed : Bool) (fileName : String) :
    reportedSegments (closeWarning closed fileName) = [] := by
  unfold closeWarning
  split <;> rfl

@[simp] lemma reportedSegments_segmentReport (fileName : String) (sidx : SegmentIndex)
    (sampleDuration segmentSize : Nat) :
    reportedSegments (segmentReport ctx fileName sidx sampleDuration segmentSize) =
      if ctx.hasListener then
        [(fileName, sidx.earliestPresentationTime, segmentDuration sidx, segmentSize)]
      else [] := by
  unfold segmentReport
  split <;> rfl

lemma writtenBytes_of_succeeds {o : SegmentFileOutcome} (h : o.succeeds) (buffer fragmentBuffer) :
    o.writtenBytes buffer fragmentBuffer = buffer ++ fragmentBuffer := by
  simp only [SegmentFileOutcome.succeeds, Bool.and_eq_true] at h
  simp [SegmentFileOutcome.writtenBytes, h.1.2, WriteResult.bytes_of_isComplete h.1.2,
    WriteResult.bytes_of_isComplete h.2]

lemma opened_of_succeeds {o : SegmentFileOutcome} (h : o.succeeds) : o.opened := by
  simp_all [SegmentFileOutcome.succeeds]

variable (seg : SegmentInput) (s : MultiSegmentSegmenter)

lemma writtenSegmentBytes_of_succeeds (h : seg.outcome.succeeds) :
    writtenSegmentBytes ctx seg = segmentBytes ctx seg := by
  simp [writtenSegmentBytes, opened_of_succeeds h, writtenBytes_of_succeeds h, segmentBytes]

lemma doInitialize_complete (files : String → List Byte) (closed : Bool) :
    (doInitialize ctx true .complete closed (.new files)).2 =
      ⟨0, Function.update files ctx.options.outputFileName (ctx.ftyp ++ ctx.moov),
        closeWarning closed ctx.options.outputFileName⟩ := by
  simp [doInitialize, writeToFile, openFile, WriteResult.status, WriteResult.bytes,
    MultiSegmentSegmenter.new]

lemma numSegments_finalizeSegment :
    (finalizeSegment ctx seg s).2.numSegments =
      (segmentTarget ctx s.numSegments (finalizedSidx ctx seg)).numSegments := by
  unfold finalizeSegment
  cases h : seg.outcome.opened
  · rw [writeSegment_of_not_opened _ _ _ _ _ _ h]
  · rw [writeSegment_of_opened _ _ _ _ _ _ h]

lemma files_finalizeSegment :
    (finalizeSegment ctx seg s).2.files =
      let t := segmentTarget ctx s.numSegments (finalizedSidx ctx seg)
      if seg.outcome.opened then
        Function.update s.files t.fileName
          (openFile s.files t.fileName t.mode t.fileName ++ writtenSegmentBytes ctx seg)
      else s.files := by
  unfold finalizeSegment
  cases h : seg.outcome.opened
  · simp [writeSegment_of_not_opened _ _ _ _ _ _ h]
  · simp [writeSegment_of_opened _ _ _ _ _ _ h, writtenSegmentBytes, h]

lemma reportedSegments_finalizeSegment :
    reportedSegments (finalizeSegment ctx seg s).2.events =
      reportedSegments s.events ++
        if seg.outcome.succeeds && ctx.hasListener then [segmentRecord ctx s.numSegments seg]
        else [] := by
  unfold finalizeSegment
  cases h : seg.outcome.opened
  · simp [writeSegment_of_not_opened _ _ _ _ _ _ h, SegmentFileOutcome.succeeds, h]
  · rw [writeSegment_of_opened _ _ _ _ _ _ h]
    cases seg.outcome.succeeds <;> cases hL : ctx.hasListener <;>
      simp [segmentRecord, segmentBytes, hL]

end Runs

/-! ### Segments appended to the output file -/

section Append

variable (ctx : SegmenterContext) (hT : ctx.options.segmentTemplate = "")
include hT

lemma segmentTarget_of_append (n : Nat) (sidx : SegmentIndex) :
    segmentTarget ctx n sidx =
      ⟨ctx.options.outputFileName, .append,
        ⟨.fileFailure, "Cannot open file for append " ++ ctx.options.outputFileName⟩, n⟩ := by
  simp [segmentTarget, hT, String.isEmpty_iff]

/-- Without a segment template the output file grows by what each call writes, failed calls
included, and `num_segments_` stays as it was. -/
lemma finalizeSegments_append (segs : List SegmentInput) (s : MultiSegmentSegmenter) :
    (finalizeSegments ctx segs s).2.numSegments = s.numSegments ∧
    (finalizeSegments ctx segs s).2.files ctx.options.outputFileName =
      s.files ctx.options.outputFileName ++ (segs.map (writtenSegmentBytes ctx)).flatten ∧
    reportedSegments (finalizeSegments ctx segs s).2.events =
      reportedSegments s.events ++
        (segs.filter fun seg => seg.outcome.succeeds && ctx.hasListener).map
          (segmentRecord ctx s.numSegments) := by
  induction segs generalizing s with
  | nil => simp [finalizeSegments]
  | cons seg segs ih =>
    obtain ⟨hn, hf, hr⟩ := ih (finalizeSegment ctx seg s).2
    have hn1 : (finalizeSegment ctx seg s).2.numSegments = s.numSegments := by
      rw [numSegments_finalizeSegment, segmentTarget_of_append ctx hT]
    refine ⟨hn.trans hn1, ?_, ?_⟩
    · rw [finalizeSegments, hf, files_finalizeSegment, segmentTarget_of_append ctx hT]
      by_cases ho : seg.outcome.opened
      · simp [ho, openFile]
      · simp [ho, writtenSegmentBytes]
    · rw [finalizeSegments, hr, reportedSegments_finalizeSegment, hn1]
      by_cases hs : seg.outcome.succeeds && ctx.hasListener <;> simp [hs]

/-- With a listener and every open and write succeeding, the output file is the init segment
followed by every segment's bytes, and the listener hears every segment's size. -/
lemma segmenterRun_of_succeeds (hL : ctx.hasListener) (files : String → List Byte)
    (closed : Bool) (segs : List SegmentInput) (hok : ∀ seg ∈ segs, seg.outcome.succeeds) :
    (segmenterRun ctx files true .complete closed segs).2.files ctx.options.outputFileName =
      ctx.ftyp ++ ctx.moov ++ (segs.map (segmentBytes ctx)).flatten ∧
    reportedSizes (segmenterRun ctx files true .complete closed segs).2.events =
      (segs.map (segmentBytes ctx)).map List.length := by
  obtain ⟨-, hf, hr⟩ := finalizeSegments_append ctx hT segs
    (doInitialize ctx true .complete closed (.new files)).2
  have hwritten : segs.map (writtenSegmentBytes ctx) = segs.map (segmentBytes ctx) :=
    List.map_congr_left fun seg hseg => writtenSegmentBytes_of_succeeds ctx seg (hok seg hseg)
  have hall : (segs.filter fun seg => seg.outcome.succeeds && ctx.hasListener) = segs :=
    List.filter_eq_self.2 fun seg hseg => by simp [hok seg hseg, hL]
  simp only [segmenterRun, reportedSizes]
  rw [hf, hr, doInitialize_complete, hwritten, hall]
  simp [segmentRecord]

end Append

/-- Without a segment template, the output file after `DoInitialize` and any run of segments is
the init segment followed by what each segment's writes got into it, failed writes included, and
the listener hears, in order, of the segments whose open and writes all succeeded. -/
theorem segmenterRun_output_file (ctx : SegmenterContext)
    (hT : ctx.options.segmentTemplate = "") (files : String → List Byte) (closed : Bool)
    (segs : List SegmentInput) :
    (segmenterRun ctx files true .complete closed segs).2.files ctx.options.outputFileName =
      ctx.ftyp ++ ctx.moov ++ (segs.map (writtenSegmentBytes ctx)).flatten ∧
    reportedSegments (segmenterRun ctx files true .complete closed segs).2.events =
      (segs.filter fun seg => seg.outcome.succeeds && ctx.hasListener).map
        (segmentRecord ctx 0) := by
  obtain ⟨-, hf, hr⟩ := finalizeSegments_append ctx hT segs
    (doInitialize ctx true .complete closed (.new files)).2
  rw [doInitialize_complete] at hf hr
  exact ⟨by simpa [segmenterRun, doInitialize_complete] using hf,
    by simpa [segmenterRun, doInitialize_complete] using hr⟩

/-- Two segments appended to `out`, the second failing before its first byte: the file keeps the
init segment and the first segment, and only the first is reported. -/
theorem segmenterRun_output_file_failed_write :
    ("" : String) = "" ∧
    (segmenterRun
      ⟨⟨"out", "", 1, 0⟩, fun _ _ _ _ => "", [1], [2], [3], fun _ => [4], true⟩
      (fun _ => []) true .complete true
      [⟨⟨0, [⟨5, 10, .type1, 0, 0⟩]⟩, [9], 10, ⟨true, .complete, .complete, true⟩⟩,
        ⟨⟨10, [⟨5, 10, .type1, 0, 10⟩]⟩, [9], 10,
          ⟨true, .failed 0 "disk full", .complete, false⟩⟩]).2.files "out" = [1, 2, 4, 9] ∧
    reportedSegments (segmenterRun
      ⟨⟨"out", "", 1, 0⟩, fun _ _ _ _ => "", [1], [2], [3], fun _ => [4], true⟩
      (fun _ => []) true .complete true
      [⟨⟨0, [⟨5, 10, .type1, 0, 0⟩]⟩, [9], 10, ⟨true, .complete, .complete, true⟩⟩,
        ⟨⟨10, [⟨5, 10, .type1, 0, 10⟩]⟩, [9], 10,
          ⟨true, .failed 0 "disk full", .complete, false⟩⟩]).2.events =
      [("out", 0, 10, 2)] := by
  obtain ⟨hf, hr⟩ := segmenterRun_output_file
    ⟨⟨"out", "", 1, 0⟩, fun _ _ _ _ => "", [1], [2], [3], fun _ => [4], true⟩ rfl
    (fun _ => []) true
    [⟨⟨0, [⟨5, 10, .type1, 0, 0⟩]⟩, [9], 10, ⟨true, .complete, .complete, true⟩⟩,
      ⟨⟨10, [⟨5, 10, .type1, 0, 10⟩]⟩, [9], 10,
        ⟨true, .failed 0 "disk full", .complete, false⟩⟩]
  exact ⟨rfl, hf.trans (by decide), hr.trans (by decide)⟩

/-- Without a segment template and with a listener, when every write succeeds, the sizes the
listener receives locate each segment in the output file: segment `i` is the range as long as its
reported size that starts after the init segment and the sizes reported before it. -/
theorem reported_sizes_locate_segments (ctx : SegmenterContext)
    (hT : ctx.options.segmentTemplate = "") (hL : ctx.hasListener) (files : String → List Byte)
    (closed : Bool) (segs : List SegmentInput) (hok : ∀ seg ∈ segs, seg.outcome.succeeds)
    (i : Nat) (hi : i < segs.length) :
    rangeAt ((segmenterRun ctx files true .complete closed segs).2.files ctx.options.outputFileName)
      (ctx.ftyp ++ ctx.moov).length
      (reportedSizes (segmenterRun ctx files true .complete closed segs).2.events) i =
      segmentBytes ctx segs[i] := by
  obtain ⟨hfile, hsizes⟩ := segmenterRun_of_succeeds ctx hT hL files closed segs hok
  have hlen : i < (segs.map (segmentBytes ctx)).length := by simpa using hi
  rw [rangeAt, hsizes, hfile, List.drop_append, List.drop_sum_flatten,
    List.drop_eq_getElem_cons hlen, List.flatten_cons,
    List.getD_eq_getElem _ _ (by simpa using hi), List.getElem_map,
    List.take_left' (List.getElem_map _ ▸ rfl), List.getElem_map]

/-- The second of two segments sits after the init segment and the first segment's reported
size. -/
theorem reported_sizes_locate_second_segment :
    ("" : String) = "" ∧ true = true ∧
    (∀ seg ∈ ([⟨⟨0, [⟨5, 10, .type1, 0, 0⟩]⟩, [9], 10, ⟨true, .complete, .complete, true⟩⟩,
        ⟨⟨10, [⟨5, 10, .type1, 0, 10⟩]⟩, [8, 8], 10,
          ⟨true, .complete, .complete, true⟩⟩] : List SegmentInput),
      seg.outcome.succeeds) ∧
    1 < 2 ∧
    rangeAt
      ((segmenterRun
        ⟨⟨"out", "", 1, 0⟩, fun _ _ _ _ => "", [1], [2], [3], fun _ => [4], true⟩
        (fun _ => []) true .complete true
        [⟨⟨0, [⟨5, 10, .type1, 0, 0⟩]⟩, [9], 10, ⟨true, .complete, .complete, true⟩⟩,
          ⟨⟨10, [⟨5, 10, .type1, 0, 10⟩]⟩, [8, 8], 10,
            ⟨true, .complete, .complete, true⟩⟩]).2.files "out")
      2
      (reportedSizes (segmenterRun
        ⟨⟨"out", "", 1, 0⟩, fun _ _ _ _ => "", [1], [2], [3], fun _ => [4], true⟩
        (fun _ => []) true .complete true
        [⟨⟨0, [⟨5, 10, .type1, 0, 0⟩]⟩, [9], 10, ⟨true, .complete, .complete, true⟩⟩,
          ⟨⟨10, [⟨5, 10, .type1, 0, 10⟩]⟩, [8, 8], 10,
            ⟨true, .complete, .complete, true⟩⟩]).2.events)
      1 = [4, 8, 8] :=
  ⟨rfl, rfl, by decide, by decide,
    (reported_sizes_locate_segments
      ⟨⟨"out", "", 1, 0⟩, fun _ _ _ _ => "", [1], [2], [3], fun _ => [4], true⟩ rfl rfl
      (fun _ => []) true
      [⟨⟨0, [⟨5, 10, .type1, 0, 0⟩]⟩, [9], 10, ⟨true, .complete, .complete, true⟩⟩,
        ⟨⟨10, [⟨5, 10, .type1, 0, 10⟩]⟩, [8, 8], 10, ⟨true, .complete, .complete, true⟩⟩]
      (by decide) 1 (by decide)).trans (by decide)⟩

/-! ### Segments in files of their own -/

section Template

variable (ctx : SegmenterContext) (hT : ctx.options.segmentTemplate ≠ "")
include hT

lemma segmentTarget_of_template (n : Nat) (sidx : SegmentIndex) :
    segmentTarget ctx n sidx =
      ⟨ctx.getSegmentName ctx.options.segmentTemplate sidx.earliestPresentationTime n
          ctx.options.bandwidth, .write,
        ⟨.fileFailure, "Cannot open file for write " ++ ctx.getSegmentName
          ctx.options.segmentTemplate sidx.earliestPresentationTime n ctx.options.bandwidth⟩,
        n + 1⟩ := by
  simp [segmentTarget, hT, String.isEmpty_iff]

lemma numSegments_finalizeSegment_of_template (seg : SegmentInput) (s : MultiSegmentSegmenter) :
    (finalizeSegment ctx seg s).2.numSegments = s.numSegments + 1 := by
  rw [numSegments_finalizeSegment, segmentTarget_of_template ctx hT]

/-- A run leaves alone every file that none of its segments is named after. -/
lemma files_finalizeSegments_of_ne (name : String) (segs : List SegmentInput)
    (s : MultiSegmentSegmenter)
    (h : ∀ p ∈ segs.enumFrom s.numSegments, (segmentRecord ctx p.1 p.2).1 ≠ name) :
    (finalizeSegments ctx segs s).2.files name = s.files name := by
  induction segs generalizing s with
  | nil => rfl
  | cons seg segs ih =>
    have hne : (segmentTarget ctx s.numSegments (finalizedSidx ctx seg)).fileName ≠ name :=
      h (s.numSegments, seg) (List.mem_cons_self _ _)
    rw [finalizeSegments, ih _ fun p hp => h p (by
      rw [numSegments_finalizeSegment_of_template ctx hT] at hp
      exact List.mem_cons_of_mem _ hp), files_finalizeSegment]
    split <;> simp [Function.update_noteq hne.symm]

/-- When the template names distinct numbers differently, a segment whose open and writes
succeed leaves its file holding its bytes: the later calls write other files. -/
lemma files_finalizeSegments_cons_of_succeeds
    (hname : ∀ t t' n n', ctx.getSegmentName ctx.options.segmentTemplate t n
      ctx.options.bandwidth = ctx.getSegmentName ctx.options.segmentTemplate t' n'
      ctx.options.bandwidth → n = n')
    (seg : SegmentInput) (segs : List SegmentInput) (s : MultiSegmentSegmenter)
    (hok : seg.outcome.succeeds) :
    (finalizeSegments ctx (seg :: segs) s).2.files (segmentRecord ctx s.numSegments seg).1 =
      segmentBytes ctx seg := by
  rw [finalizeSegments, files_finalizeSegments_of_ne ctx hT]
  · simp [files_finalizeSegment, opened_of_succeeds hok, writtenSegmentBytes_of_succeeds _ _ hok,
      segmentTarget_of_template ctx hT, openFile, segmentRecord]
  · intro q hq heq
    have hle := List.le_fst_of_mem_enumFrom hq
    rw [numSegments_finalizeSegment_of_template ctx hT] at hle
    have := hname _ _ _ _ (by simpa [segmentRecord, segmentTarget_of_template ctx hT] using heq)
    omega

end Template

/-- With a segment template, over any run, failed segments included: `num_segments_` counts every
segment; when the template names distinct numbers differently, each segment whose writes succeeded
leaves its file holding its bytes; and the listener hears of those segments, in order. -/
theorem segment_files_of_template (ctx : SegmenterContext)
    (hT : ctx.options.segmentTemplate ≠ "")
    (hname : ∀ t t' n n', ctx.getSegmentName ctx.options.segmentTemplate t n
      ctx.options.bandwidth = ctx.getSegmentName ctx.options.segmentTemplate t' n'
      ctx.options.bandwidth → n = n')
    (segs : List SegmentInput) (s : MultiSegmentSegmenter) :
    (finalizeSegments ctx segs s).2.numSegments = s.numSegments + segs.length ∧
    (∀ p ∈ segs.enumFrom s.numSegments, p.2.outcome.succeeds →
      (finalizeSegments ctx segs s).2.files (segmentRecord ctx p.1 p.2).1 =
        segmentBytes ctx p.2) ∧
    reportedSegments (finalizeSegments ctx segs s).2.events =
      reportedSegments s.events ++
        ((segs.enumFrom s.numSegments).filter fun p =>
          p.2.outcome.succeeds && ctx.hasListener).map fun p => segmentRecord ctx p.1 p.2 := by
  induction segs generalizing s with
  | nil => simp [finalizeSegments]
  | cons seg segs ih =>
    have hn := numSegments_finalizeSegment_of_template ctx hT seg s
    obtain ⟨ihn, ihf, ihr⟩ := ih (finalizeSegment ctx seg s).2
    rw [hn] at ihn ihf ihr
    refine ⟨by simp [finalizeSegments, ihn]; omega, ?_, ?_⟩
    · rintro p hp hok
      rw [List.enumFrom_cons, List.mem_cons] at hp
      rcases hp with rfl | hp
      · exact files_finalizeSegments_cons_of_succeeds ctx hT hname seg segs s hok
      · exact ihf p hp hok
    · rw [finalizeSegments, ihr, reportedSegments_finalizeSegment, List.enumFrom_cons,
        List.filter_cons]
      by_cases hs : seg.outcome.succeeds && ctx.hasListener <;> simp [hs]

/-- A segment whose open fails still takes number 0, so the next one is written to the file
named for number 1. -/
theorem segment_files_after_failed_open :
    ("seg" : String) ≠ "" ∧
    (∀ n n' : Nat, String.mk (List.replicate n 'x') = String.mk (List.replicate n' 'x') →
      n = n') ∧
    (finalizeSegments
      ⟨⟨"out", "seg", 1, 0⟩, fun _ _ n _ => String.mk (List.replicate n 'x'), [1], [2],
        [3], fun _ => [4], true⟩
      [⟨⟨0, [⟨5, 10, .type1, 0, 0⟩]⟩, [9], 10, ⟨false, .complete, .complete, true⟩⟩,
        ⟨⟨10, [⟨5, 10, .type1, 0, 10⟩]⟩, [9], 10,
          ⟨true, .complete, .complete, true⟩⟩]
      (.new fun _ => [])).2.numSegments = 2 ∧
    (finalizeSegments
      ⟨⟨"out", "seg", 1, 0⟩, fun _ _ n _ => String.mk (List.replicate n 'x'), [1], [2],
        [3], fun _ => [4], true⟩
      [⟨⟨0, [⟨5, 10, .type1, 0, 0⟩]⟩, [9], 10, ⟨false, .complete, .complete, true⟩⟩,
        ⟨⟨10, [⟨5, 10, .type1, 0, 10⟩]⟩, [9], 10,
          ⟨true, .complete, .complete, true⟩⟩]
      (.new fun _ => [])).2.files "x" = [3, 4, 9] ∧
    reportedSegments (finalizeSegments
      ⟨⟨"out", "seg", 1, 0⟩, fun _ _ n _ => String.mk (List.replicate n 'x'), [1], [2],
        [3], fun _ => [4], true⟩
      [⟨⟨0, [⟨5, 10, .type1, 0, 0⟩]⟩, [9], 10, ⟨false, .complete, .complete, true⟩⟩,
        ⟨⟨10, [⟨5, 10, .type1, 0, 10⟩]⟩, [9], 10,
          ⟨true, .complete, .complete, true⟩⟩]
      (.new fun _ => [])).2.events = [("x", 10, 10, 3)] := by
  have hinj : ∀ n n' : Nat,
      String.mk (List.replicate n 'x') = String.mk (List.replicate n' 'x') → n = n' :=
    fun n n' h => by simpa using congrArg String.length h
  obtain ⟨hn, hf, hr⟩ := segment_files_of_template
    ⟨⟨"out", "seg", 1, 0⟩, fun _ _ n _ => String.mk (List.replicate n 'x'), [1], [2],
        [3], fun _ => [4], true⟩
    (by decide) (fun _ _ => hinj)
    [⟨⟨0, [⟨5, 10, .type1, 0, 0⟩]⟩, [9], 10, ⟨false, .complete, .complete, true⟩⟩,
        ⟨⟨10, [⟨5, 10, .type1, 0, 10⟩]⟩, [9], 10,
          ⟨true, .complete, .complete, true⟩⟩]
    (.new fun _ => [])
  exact ⟨by decide, hinj, hn,
    (hf _ (List.mem_cons_of_mem _ (List.mem_cons_self _ _)) rfl).trans (by decide),
    hr.trans (by decide)⟩

end EdashPackager.Media.Mp4
