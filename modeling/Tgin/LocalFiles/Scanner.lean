import Tgin.LocalFiles.Multipart

/-! What a streamed body is scanned with, of `gateway/local_files.rs`: the verdict does not depend on how the body is cut
    into frames. -/

namespace Tgin.LocalFiles

/-- How a request body carries its parameters. -/
inductive Encoding where
  | multipart
  | json
  | form
  deriving DecidableEq, Repr

/-- Reads bytes until a reference is found. -/
def readUntil {σ : Type} (step : σ → UInt8 → σ) (found : σ → Bool) : σ → Bytes → σ
  | s, [] => s
  | s, b :: data => if found (step s b) then step s b else readUntil step found (step s b) data

inductive Scanner where
  | multipart (scan : MultipartScan)
  /-- A JSON body, and its bytes so far. -/
  | json (values : Levels) (total : Nat)
  /-- An urlencoded body, and its bytes so far. -/
  | form (values : Levels) (form : Form) (total : Nat)

namespace Scanner

/-- A multipart body with the delimiter `boundary`. -/
def ofMultipart (boundary : Bytes) : Scanner := .multipart (.new boundary)

/-- A JSON or urlencoded body (multipart reads as urlencoded, but has its own constructor). -/
def params (encoding : Encoding) : Scanner :=
  match encoding with
  | .json => .json .default 0
  | .form | .multipart => .form .default .name 0

/-- What is asked of the values after every frame. -/
def verdictOf (values : Levels) (total : Nat) : Option Verdict :=
  if values.found then some (.refused .localFile)
  else if MAX_PARAMETERS < total then some (.refused .tooLarge)
  else none

/-- Feeds the next bytes; the verdict once there is one. -/
def feed (scanner : Scanner) (data : Bytes) : Scanner × Option Verdict :=
  match scanner with
  | multipart scan => (multipart (scan.feed data), (scan.feed data).verdict)
  | json values total =>
    let values := readUntil Levels.jsonByte Levels.found values data
    (json values (total + data.length), verdictOf values (total + data.length))
  | form values machine total =>
    let (machine, values) :=
      readUntil (fun (read : Form × Levels) b => read.1.byte read.2 b) (fun read => read.2.found) (machine, values) data
    (form values machine (total + data.length), verdictOf values (total + data.length))

/-- The body ended: the verdict on all of it. -/
def finish (scanner : Scanner) : Verdict :=
  match scanner with
  | multipart scan => scan.finish
  | json values _ => if values.found then .refused .localFile else .clean
  | form values machine _ => if (machine.atEnd values).2.found then .refused .localFile else .clean

/-- The verdict on a body in frames. -/
def verdict (scanner : Scanner) : List Bytes → Verdict
  | [] => scanner.finish
  | data :: frames => ((scanner.feed data).2).getD ((scanner.feed data).1.verdict frames)

end Scanner

namespace MultipartScan

theorem Clear.run {scan : MultipartScan} (h : scan.Clear) (text : Bytes) : (scan.run text).Clear := by
  induction text generalizing scan with
  | nil => exact h
  | cons b text ih =>
    cases hv : scan.verdict with
    | some verdict =>
      rw [run_of_verdict (by rw [hv]; rfl)]
      exact h
    | none =>
      rw [run_cons hv]
      exact ih (h.byte b)

/-- A piece that is cut in two. -/
theorem Clear.feed_append {scan : MultipartScan} (h : scan.Clear) (data more : Bytes) :
    scan.feed (data ++ more) = (scan.feed data).feed more := by
  rw [h.feed_eq, h.feed_eq, (h.run data).feed_eq, run_append]

theorem Clear.feed {scan : MultipartScan} (h : scan.Clear) (data : Bytes) : (scan.feed data).Clear := h.feed_eq data ▸ h.run data

theorem feed_of_verdict {scan : MultipartScan} (h : scan.verdict.isSome) (data : Bytes) : scan.feed data = scan := by
  rw [MultipartScan.feed, if_pos h]

/-- The frames of a multipart body. -/
theorem Clear.verdict_eq {scan : MultipartScan} (h : scan.Clear) (frames : List Bytes) :
    (Scanner.multipart scan).verdict frames = (scan.feed frames.flatten).finish := by
  induction frames generalizing scan with
  | nil =>
    have same : scan.feed [] = scan := h.feed_eq []
    rw [List.flatten_nil, same]
    rfl
  | cons data frames ih =>
    have step : (Scanner.multipart scan).verdict (data :: frames) =
        ((scan.feed data).verdict).getD ((Scanner.multipart (scan.feed data)).verdict frames) := rfl
    rw [step, ih (h.feed data), List.flatten_cons, h.feed_append]
    cases hv : (scan.feed data).verdict with
    | none => rfl
    | some verdict =>
      rw [feed_of_verdict (by rw [hv]; rfl), finish, hv]
      rfl

end MultipartScan

/-! ### JSON and urlencoded bodies -/

/-- A reader that may be stopped once it has found something. -/
structure Reader where
  σ : Type
  step : σ → UInt8 → σ
  found : σ → Bool
  /-- Whether something has been found by the end. -/
  atEnd : σ → Bool
  /-- What there is to find in a text. -/
  whole : Bytes → Bool
  /-- `s` has read a text. -/
  Read : σ → Bytes → Prop
  read_step : ∀ {s : σ} {text : Bytes} (b : UInt8), Read s text → Read (step s b) (text ++ [b])
  read_found : ∀ {s : σ} {text : Bytes}, Read s text → found s → ∀ more, whole (text ++ more)
  read_end : ∀ {s : σ} {text : Bytes}, Read s text → atEnd s = whole text

namespace Reader
variable (r : Reader)

/-- The verdict on a text in frames, of which `total` bytes have been read. -/
def verdict : r.σ → Nat → List Bytes → Verdict
  | s, _, [] => if r.atEnd s then .refused .localFile else .clean
  | s, total, data :: frames =>
    let s := readUntil r.step r.found s data
    if r.found s then .refused .localFile
    else if MAX_PARAMETERS < total + data.length then .refused .tooLarge
    else verdict s (total + data.length) frames

variable {r} {s : r.σ} {text : Bytes}

theorem readUntil_cases (data : Bytes) (h : r.Read s text) (clear : r.found s = false) :
    (r.found (readUntil r.step r.found s data) = true ∧ ∀ more, r.whole (text ++ (data ++ more)) = true) ∨
      (r.found (readUntil r.step r.found s data) = false ∧ r.Read (readUntil r.step r.found s data) (text ++ data)) := by
  induction data generalizing s text with
  | nil =>
    right
    rw [List.append_nil]
    exact ⟨clear, h⟩
  | cons b data ih =>
    have read := r.read_step b h
    rw [readUntil]
    cases hf : r.found (r.step s b) with
    | true =>
      left
      rw [if_pos rfl]
      refine ⟨hf, fun more => ?_⟩
      rw [List.cons_append, List.append_cons]
      exact r.read_found read hf _
    | false =>
      rw [if_neg Bool.false_ne_true]
      have := ih read hf
      simpa only [← List.append_cons, List.cons_append] using this

/-- A text is refused as too large before it is found to refer to a local file, or after. -/
theorem verdict_clean {total : Nat} (frames : List Bytes) (h : r.Read s text) (clear : r.found s = false)
    (room : total ≤ MAX_PARAMETERS) :
    r.verdict s total frames = .clean ↔
      r.whole (text ++ frames.flatten) = false ∧ total + frames.flatten.length ≤ MAX_PARAMETERS := by
  induction frames generalizing s text total with
  | nil =>
    rw [verdict, r.read_end h, List.flatten_nil, List.append_nil]
    cases r.whole text with
    | true => exact ⟨nofun, nofun⟩
    | false => exact ⟨fun _ => ⟨rfl, room⟩, fun _ => rfl⟩
  | cons data frames ih =>
    rw [verdict, List.flatten_cons, List.length_append, ← Nat.add_assoc]
    rcases readUntil_cases data h clear with ⟨found, whole⟩ | ⟨found, read⟩
    · rw [if_pos found]
      refine iff_of_false nofun fun h => ?_
      exact absurd (whole frames.flatten) (Bool.eq_false_iff.mp h.1)
    · rw [if_neg (Bool.not_eq_true _ ▸ found)]
      by_cases long : MAX_PARAMETERS < total + data.length
      · rw [if_pos long]
        refine iff_of_false nofun fun ⟨_, le⟩ => ?_
        omega
      · rw [if_neg long, ih read found (Nat.not_lt.mp long), List.append_assoc]

/-- Within the bound the verdict is what there is to find. -/
theorem verdict_eq {total : Nat} (frames : List Bytes) (h : r.Read s text) (clear : r.found s = false)
    (room : total + frames.flatten.length ≤ MAX_PARAMETERS) :
    r.verdict s total frames = if r.whole (text ++ frames.flatten) then .refused .localFile else .clean := by
  induction frames generalizing s text total with
  | nil => rw [verdict, r.read_end h, List.flatten_nil, List.append_nil]
  | cons data frames ih =>
    rw [List.flatten_cons, List.length_append, ← Nat.add_assoc] at room
    rw [verdict, List.flatten_cons]
    rcases readUntil_cases data h clear with ⟨found, whole⟩ | ⟨found, read⟩
    · rw [if_pos found, whole frames.flatten, if_pos rfl]
    · have short : ¬MAX_PARAMETERS < total + data.length := Nat.not_lt.mpr (Nat.le_trans (Nat.le_add_right ..) room)
      rw [if_neg (Bool.not_eq_true _ ▸ found), if_neg short, ih read found room, List.append_assoc]

end Reader

/-- JSON bodies. -/
def jsonReader : Reader where
  σ := Levels
  step := Levels.jsonByte
  found := Levels.found
  atEnd := Levels.found
  whole text := (literals text).any (refers 2)
  Read values text := values.values.ReadsDoc 2 0 text ∧ values.found = (literals text).any (refers 2)
  read_step {values text} b h := by
    obtain ⟨v, hb, -, doc, found⟩ := Values.jsonByte_reads b values.bounded h.1 h.2
    have eq : (values.jsonByte b).values = v := Option.some.inj ((Levels.ofSome_eq (values.jsonByte_bounded b)).symm.trans hb)
    rw [Levels.found, eq]
    exact ⟨doc, found⟩
  read_found h found more := Values.any_literals_append more (h.2 ▸ found)
  read_end h := h.2

/-- Urlencoded bodies. -/
def formReader : Reader where
  σ := Form × Levels
  step read b := read.1.byte read.2 b
  found read := read.2.found
  atEnd read := (read.1.atEnd read.2).2.found
  whole text := (formValues text).any (refers 3)
  Read read text := ∃ texts, read.1.Read read.2 false texts ∧ ∀ rest, read.1.remaining texts rest = formValues (text ++ rest)
  read_step {read text} b h := by
    obtain ⟨texts, reads, remaining⟩ := h
    obtain ⟨texts', reads', goes⟩ := Form.byte_goes reads b
    refine ⟨texts', reads', fun rest => (goes rest).trans ?_⟩
    rw [remaining, List.append_assoc]
  read_found {read text} h found more := by
    obtain ⟨texts, reads, remaining⟩ := h
    rw [← remaining]
    refine Form.remaining_any reads more ?_
    rwa [reads.shown.found, Bool.false_or] at found
  read_end {read text} h := by
    obtain ⟨texts, reads, remaining⟩ := h
    rw [(Form.atEnd_shown reads).found, Bool.false_or, remaining, List.append_nil]

namespace Scanner

theorem getD_verdictOf (values : Levels) (total : Nat) (verdict : Verdict) :
    (verdictOf values total).getD verdict =
      if values.found then .refused .localFile else if MAX_PARAMETERS < total then .refused .tooLarge else verdict := by
  unfold verdictOf
  split
  · rfl
  · split <;> rfl

theorem verdict_json (frames : List Bytes) (values : Levels) (total : Nat) :
    (json values total).verdict frames = jsonReader.verdict values total frames := by
  induction frames generalizing values total with
  | nil => rfl
  | cons data frames ih =>
    have next := ih (readUntil Levels.jsonByte Levels.found values data) (total + data.length)
    exact (congrArg _ next).trans (getD_verdictOf _ _ _)

theorem verdict_form (frames : List Bytes) (values : Levels) (machine : Form) (total : Nat) :
    (form values machine total).verdict frames = formReader.verdict (machine, values) total frames := by
  induction frames generalizing values machine total with
  | nil => rfl
  | cons data frames ih =>
    have next := ih (readUntil formReader.step formReader.found (machine, values) data).2
      (readUntil formReader.step formReader.found (machine, values) data).1 (total + data.length)
    exact (congrArg _ next).trans (getD_verdictOf _ _ _)

theorem jsonReader_new : jsonReader.Read Levels.default [] := by
  refine ⟨⟨rfl, fun ht => absurd rfl ht⟩, ?_⟩
  rw [literals]
  rfl

theorem formReader_new : formReader.Read (Form.name, Levels.default) [] :=
  ⟨[], Form.read_new .default, fun _ => rfl⟩

/-- The reader of a JSON or urlencoded body, and where it starts. -/
theorem params_reader (encoding : Encoding) :
    ∃ (r : Reader) (s : r.σ), r.Read s [] ∧ r.found s = false ∧
      ∀ frames, (params encoding).verdict frames = r.verdict s 0 frames := by
  cases encoding with
  | json => exact ⟨jsonReader, Levels.default, jsonReader_new, rfl, fun frames => verdict_json frames _ _⟩
  | form => exact ⟨formReader, (Form.name, Levels.default), formReader_new, rfl, fun frames => verdict_form frames _ _ _⟩
  | multipart => exact ⟨formReader, (Form.name, Levels.default), formReader_new, rfl, fun frames => verdict_form frames _ _ _⟩

/-- However a body is cut into frames, a multipart scan reaches the verdict on it whole; so does the scan of a JSON or
    urlencoded body within the bound, and beyond it the body is refused either way. -/
theorem verdict_frames (frames : List Bytes) :
    (∀ boundary, (ofMultipart boundary).verdict frames = (ofMultipart boundary).verdict [frames.flatten]) ∧
      ∀ encoding,
        ((params encoding).verdict frames = .clean ↔ (params encoding).verdict [frames.flatten] = .clean) ∧
          (frames.flatten.length ≤ MAX_PARAMETERS →
            (params encoding).verdict frames = (params encoding).verdict [frames.flatten]) := by
  have once : [frames.flatten].flatten = frames.flatten := by rw [List.flatten_cons, List.flatten_nil, List.append_nil]
  refine ⟨fun boundary => ?_, fun encoding => ?_⟩
  · have clear := MultipartScan.clear_new boundary
    rw [ofMultipart, clear.verdict_eq, clear.verdict_eq, once]
  · obtain ⟨r, s, read, found, eq⟩ := params_reader encoding
    refine ⟨?_, fun room => ?_⟩
    · rw [eq, eq, Reader.verdict_clean frames read found (Nat.zero_le _), Reader.verdict_clean _ read found (Nat.zero_le _), once]
    · rw [eq, eq, Reader.verdict_eq frames read found (by rwa [Nat.zero_add]),
        Reader.verdict_eq [frames.flatten] read found (by rwa [once, Nat.zero_add]), once]

end Scanner

end Tgin.LocalFiles
