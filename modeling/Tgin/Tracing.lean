import Tgin.Lib.Split
import Tgin.Lib.Utf8
import Tgin.Rules

/-! The writer of log lines, `RedactingWriter` of `tgin-runtime/src/obs/tracing.rs`. What it writes to never fails. -/

namespace Tgin.Tracing
open Rules

/-- `\n`. -/
abbrev LF : UInt8 := 10

/-- `Iterator::rposition` of a byte. -/
def rposition (c : UInt8) (buf : Str) : Option Nat := (buf.reverse.findIdx? (· = c)).map fun n => buf.length - 1 - n

/-- Redacts whole lines on their way to `inner`, which holds what it was given. -/
structure RedactingWriter where
  inner : Str
  /-- The unfinished last line. -/
  pending : Str
  deriving DecidableEq, Repr

/-- `inner` once the redaction of `bytes` has been written. -/
def emit (inner : Str) (redact : Str → Str) (bytes : Str) : Str := inner ++ redact (Utf8.lossy bytes)

namespace RedactingWriter

/-- `make_writer`. -/
def new : RedactingWriter := { inner := [], pending := [] }

/-- The writer after `buf`, and how much of it was taken. -/
def write (redact : Str → Str) (w : RedactingWriter) (buf : Str) : RedactingWriter × Nat :=
  match rposition LF buf with
  | none => ({ w with pending := w.pending ++ buf }, buf.length)
  | some newline =>
    let lines := buf.take (newline + 1)
    let rest := buf.drop (newline + 1)
    let w :=
      if w.pending = [] then { w with inner := emit w.inner redact lines }
      else { inner := emit w.inner redact (w.pending ++ lines), pending := [] }
    ({ w with pending := w.pending ++ rest }, buf.length)

/-- Flushes `inner`; an unfinished line stays held. -/
def flush (w : RedactingWriter) : RedactingWriter := w

/-- What `inner` holds once the writer is dropped. -/
def drop (redact : Str → Str) (w : RedactingWriter) : Str := if w.pending = [] then w.inner else emit w.inner redact w.pending

end RedactingWriter

/-! ### What is claimed -/

inductive Op where
  | write (buf : Str)
  | flush
  deriving DecidableEq, Repr

def Op.text : Op → Str
  | .write buf => buf
  | .flush => []

def step (redact : Str → Str) (w : RedactingWriter) : Op → RedactingWriter
  | .write buf => (w.write redact buf).1
  | .flush => w.flush

/-- The writer of a sequence of calls. -/
def run (redact : Str → Str) (ops : List Op) : RedactingWriter := ops.foldl (step redact) .new

/-- A redaction of which every line is a matter of its own. -/
def LineByLine (redact : Str → Str) : Prop := ∀ text, redact text = (Split.lines LF text).flatMap redact

/-- The redaction of what bytes are read as, line by line. -/
def redacted (redact : Str → Str) (bytes : Str) : Str := (Split.lines LF (Utf8.lossy bytes)).flatMap redact

/-! ### Lines -/

section
variable {redact : Str → Str} {w : RedactingWriter} {buf left right text : Str}

theorem rposition_eq (buf : Str) :
    rposition LF buf = (Split.once LF buf.reverse).map fun parts => buf.length - 1 - parts.1.length := by
  rw [rposition, Split.findIdx?_eq, Option.map_map]
  rfl

/-- The last newline ends the lines. -/
theorem rposition_some {n : Nat} (h : rposition LF buf = some n) : ∃ before, buf.take (n + 1) = before ++ [LF] := by
  rw [rposition_eq, Option.map_eq_some_iff] at h
  obtain ⟨⟨left, right⟩, cut, rfl⟩ := h
  have eq := congrArg List.reverse (Split.once_eq_some.mp cut).1
  rw [List.reverse_reverse, List.reverse_append, List.reverse_cons] at eq
  refine ⟨right.reverse, ?_⟩
  rw [eq]
  exact List.take_left' (by simp)

/-- What ends with a newline, or is nothing. -/
def Whole (text : Str) : Prop := text = [] ∨ ∃ before, text = before ++ [LF]

theorem redacted_nil (redact : Str → Str) : redacted redact [] = [] := by
  rw [redacted, Utf8.lossy, Split.lines, List.flatMap_nil]

/-- Lines are read, and redacted, for themselves. -/
theorem redacted_append (whole : Whole left) (right : Str) : redacted redact
    (left ++ right) = redacted redact left ++ redacted redact right := by
  rcases whole with rfl | ⟨before, rfl⟩
  · rw [redacted_nil, List.nil_append, List.nil_append]
  · have lines : Utf8.lossy (before ++ [LF]) = Utf8.lossy before ++ [LF] := by rw [Utf8.lossy_append (by decide), Utf8.lossy.eq_1]
    rw [redacted, redacted, redacted, List.append_assoc, List.singleton_append, Utf8.lossy_append (by decide), Split.lines_append,
      List.flatMap_append, lines]

theorem emit_eq (lineByLine : LineByLine redact) (inner bytes : Str) : emit inner redact bytes = inner ++ redacted redact bytes := by
  rw [emit, lineByLine, redacted]

/-- The writer has passed on the whole lines of the text, and holds the rest of it. -/
def Holds (redact : Str → Str) (w : RedactingWriter) (text : Str) : Prop :=
  ∃ done, text = done ++ w.pending ∧ Whole done ∧ w.inner = redacted redact done

theorem holds_new (redact : Str → Str) : Holds redact .new [] := ⟨[], rfl, .inl rfl, (redacted_nil redact).symm⟩

theorem holds_write (lineByLine : LineByLine redact) (h : Holds redact w text) (buf : Str) :
    Holds redact (w.write redact buf).1 (text ++ buf) := by
  obtain ⟨done, rfl, whole, passed⟩ := h
  unfold RedactingWriter.write
  split
  · exact ⟨done, List.append_assoc .., whole, passed⟩
  · rename_i newline last
    obtain ⟨before, lines⟩ := rposition_some last
    have parts := List.take_append_drop (newline + 1) buf
    have ended : Whole (done ++ (w.pending ++ buf.take (newline + 1))) := by
      rw [lines]
      exact .inr ⟨done ++ (w.pending ++ before), by simp⟩
    refine ⟨done ++ (w.pending ++ buf.take (newline + 1)), ?_, ended, ?_⟩
    · split
      · rename_i empty
        simp [empty]
      · simp
    · rw [redacted_append whole, ← passed]
      split
      · rename_i empty
        rw [empty, List.nil_append]
        exact emit_eq lineByLine ..
      · exact emit_eq lineByLine ..

theorem holds_run (lineByLine : LineByLine redact) (ops : List Op) : Holds redact (run redact ops) (ops.flatMap Op.text) := by
  induction ops using List.reverseRecOn with
  | nil => exact holds_new redact
  | append_singleton ops op ih =>
    rw [run, List.foldl_append, List.flatMap_append, List.flatMap_singleton, ← run]
    cases op with
    | write buf => exact holds_write lineByLine ih buf
    | flush => exact (List.append_nil (ops.flatMap Op.text)).symm ▸ ih

/-- What has reached `inner` once the writer is dropped is the redaction of the text that was written, however it was split. -/
theorem drop_run (lineByLine : LineByLine redact) (ops : List Op) :
    (run redact ops).drop redact = redacted redact (ops.flatMap Op.text) := by
  obtain ⟨done, text, whole, passed⟩ := holds_run lineByLine ops
  rw [text, redacted_append whole, ← passed, RedactingWriter.drop]
  split
  · rename_i empty
    rw [empty, redacted_nil, List.append_nil]
  · exact emit_eq lineByLine ..

end

/-! ### A line in two pieces -/

/-- Digits as `#`. -/
def masked (text : Str) : Str := text.map fun b => if 48 ≤ b ∧ b ≤ 57 then 35 else b

theorem masked_lineByLine : LineByLine masked := by
  intro text
  have parts : (Split.lines LF text).flatMap masked = masked (Split.lines LF text).flatten := by
    rw [masked, List.map_flatten, List.flatMap_def]
    rfl
  rw [parts, Split.flatten_lines]

/-- `a1` and `2\nb`. -/
theorem drop_run_pieces : (run masked [.write [97, 49], .flush, .write [50, 10, 98]]).drop masked = redacted masked
    [97, 49, 50, 10, 98] :=
  drop_run masked_lineByLine [.write [97, 49], .flush, .write [50, 10, 98]]

end Tgin.Tracing
