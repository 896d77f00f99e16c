import Tgin.LocalFiles.HttpReader

/-! The multipart scan comes out clean exactly where the whole body has parts, none of them refers to a local file and the
    text in them is within the bound.

    The scan of a part goes through its content in step with the search for the delimiter after it; what it makes of the
    content so far is compared with the content whole. -/

namespace Tgin.LocalFiles

/-! ### Finding -/

theorem find_cons (b : UInt8) (rest pattern : Bytes) :
    find (b :: rest) pattern =
      if (b :: rest).length < pattern.length then none
      else if (b :: rest).take pattern.length = pattern then some 0
      else (find rest pattern).map (· + 1) := by
  rw [find, windows]
  split
  · rfl
  · rw [List.findIdx?_cons]
    simp only [beq_iff_eq]
    rfl

/-- Where a pattern is found. -/
theorem find_some {pattern bytes : Bytes} {i : Nat} (h : find bytes pattern = some i) : Kmp.Leftmost pattern bytes i := by
  induction bytes generalizing i with
  | nil => cases h
  | cons b rest ih =>
    rw [find_cons] at h
    split at h
    · cases h
    · split at h
      · rename_i here
        cases h
        refine ⟨?_, nofun⟩
        rw [List.drop_zero, List.prefix_iff_eq_take]
        exact here.symm
      · rename_i here
        obtain ⟨i, hi, rfl⟩ := Option.map_eq_some_iff.mp h
        obtain ⟨starts, before⟩ := ih hi
        refine ⟨starts, fun j hj => ?_⟩
        cases j with
        | zero =>
          rw [List.drop_zero, List.prefix_iff_eq_take]
          exact fun hp => here hp.symm
        | succ j => exact before j (Nat.lt_of_succ_lt_succ hj)

theorem find_none {pattern bytes : Bytes} (ne : pattern ≠ []) (h : find bytes pattern = none) : ¬pattern <:+: bytes := by
  induction bytes with
  | nil => exact fun hi => ne (List.infix_nil.mp hi)
  | cons b rest ih =>
    rw [find_cons] at h
    split at h
    · rename_i short
      exact fun hi => absurd hi.length_le (Nat.not_le.mpr short)
    · split at h
      · cases h
      · rename_i here
        rw [List.infix_cons_iff, List.prefix_iff_eq_take]
        rintro (hp | hi)
        · exact here hp.symm
        · exact ih (Option.map_eq_none_iff.mp h) hi

theorem find_le {pattern bytes : Bytes} {i : Nat} (ne : pattern ≠ []) (h : find bytes pattern = some i) :
    i + pattern.length ≤ bytes.length := by
  have := (find_some h).1.length_le
  have pos := List.length_pos_iff.mpr ne
  rw [List.length_drop] at this
  omega

/-- A pattern that is found ends with the byte at which a text first ends with it. -/
theorem find_split {pattern bytes : Bytes} {i : Nat} (ne : pattern ≠ []) (h : find bytes pattern = some i) :
    ∃ text b, bytes.take (i + pattern.length) = text ++ [b] ∧ ¬pattern <:+: text ∧ text ++ [b] = bytes.take i ++ pattern := by
  have leftmost := find_some h
  obtain ⟨n, hn⟩ : ∃ n, pattern.length = n + 1 := Nat.exists_eq_succ_of_ne_zero fun zero => ne (List.length_eq_zero_iff.mp zero)
  have last : pattern.take n ++ [pattern.getLast ne] = pattern := by
    have := List.dropLast_append_getLast ne
    rwa [List.dropLast_eq_take, hn, Nat.add_sub_cancel] at this
  have before := leftmost.take (show n ≤ pattern.length by omega)
  refine ⟨bytes.take (i + n), pattern.getLast ne, ?_, leftmost.not_infix (by omega), ?_⟩
  · rw [leftmost.take (Nat.le_refl _), before, List.take_length, List.append_assoc, last]
  · rw [before, List.append_assoc, last]

namespace MultipartScan

/-! ### Byte by byte -/

/-- `byte` for each byte of a text, until there is a verdict. -/
def run (scan : MultipartScan) (text : Bytes) : MultipartScan :=
  text.foldl (fun scan b => if scan.verdict.isSome then scan else scan.byte b) scan

theorem run_of_verdict {scan : MultipartScan} (h : scan.verdict.isSome) (text : Bytes) : scan.run text = scan := by
  induction text with
  | nil => rfl
  | cons b text ih =>
    rw [run, List.foldl_cons, if_pos h]
    exact ih

theorem run_cons {scan : MultipartScan} (h : scan.verdict = none) (b : UInt8) (text : Bytes) :
    scan.run (b :: text) = (scan.byte b).run text := by
  rw [run, List.foldl_cons, h]
  rfl

theorem run_append (scan : MultipartScan) (text text' : Bytes) : scan.run (text ++ text') = (scan.run text).run text' :=
  List.foldl_append ..

theorem run_concat {scan : MultipartScan} {text : Bytes} (h : (scan.run text).verdict = none) (b : UInt8) :
    scan.run (text ++ [b]) = (scan.run text).byte b := by
  rw [run_append, run_cons h]
  rfl

/-! ### Before the first part -/

section
variable {scan : MultipartScan}

theorem prologue_run (fresh : scan.first.Fresh) (hv : scan.verdict = none) (hs : scan.state = .prologue) {text : Bytes}
    (absent : ¬scan.first.word <:+: text) : scan.run text = { scan with first := (scan.first.bytes text).1 } := by
  induction text using List.reverseRecOn with
  | nil => rfl
  | append_singleton text b ih =>
    have ih := ih fun hi => absent (List.infix_concat_iff.mpr (.inr hi))
    have ended := fresh.bytes_goes_on absent
    have step := run_concat (by rw [ih]; exact hv) b
    rw [step, ih, byte]
    simp only [hs, ended, Matcher.bytes_concat]
    rfl

theorem prologue_ended (fresh : scan.first.Fresh) (hv : scan.verdict = none) (hs : scan.state = .prologue) {text : Bytes} {b : UInt8}
    (absent : ¬scan.first.word <:+: text) (found : scan.first.word <:+ text ++ [b]) :
    ∃ first, scan.run (text ++ [b]) = { scan with first, headers := [], state := .headers } := by
  have before := prologue_run fresh hv hs absent
  have ended := (fresh.bytes_ended absent found).1
  have step := run_concat (by rw [before]; exact hv) b
  refine ⟨((scan.first.bytes text).1.step b).1, ?_⟩
  rw [step, before, byte]
  simp only [hs, ended]
  rfl

/-! ### Headers -/

/-- A block that goes on for too long. -/
def Long (scan : MultipartScan) (text : Bytes) : Prop := MAX_PART_HEADERS + 4 < scan.headersTotal + text.length

theorem headerByte_long {text : Bytes} {b : UInt8} (long : scan.Long (text ++ [b])) :
    headerByte { scan with headers := text } b = { scan with headers := text ++ [b], verdict := some (.refused .unreadable) } :=
  if_pos long

theorem headerByte_next {text : Bytes} {b : UInt8} (short : ¬scan.Long (text ++ [b])) (absent : ¬headersEnd <:+ text ++ [b]) :
    headerByte { scan with headers := text } b = { scan with headers := text ++ [b] } := by
  have more : ¬headersEnd.isSuffixOf (text ++ [b]) = true := by rwa [List.isSuffixOf_iff_suffix]
  exact (if_neg short).trans (if_pos more)

/-- A block before it ends. -/
theorem headers_run (hv : scan.verdict = none) (hs : scan.state = .headers) (hh : scan.headers = [])
    (room : scan.headersTotal ≤ MAX_PART_HEADERS) {text : Bytes} (absent : ¬headersEnd <:+: text) :
    (scan.Long text ∧ (scan.run text).verdict = some (.refused .unreadable)) ∨
      (¬scan.Long text ∧ scan.run text = { scan with headers := text }) := by
  induction text using List.reverseRecOn with
  | nil =>
    right
    have same : ({ scan with headers := [] } : MultipartScan) = scan := by rw [← hh]
    exact ⟨Nat.not_lt.mpr (Nat.le_add_right_of_le room), same.symm⟩
  | append_singleton text b ih =>
    rw [List.infix_concat_iff, not_or] at absent
    rcases ih absent.2 with ⟨long, verdict⟩ | ⟨short, eq⟩
    · left
      refine ⟨?_, ?_⟩
      · unfold Long at long ⊢
        rw [List.length_append]
        omega
      · rw [run_append, run_of_verdict (by rw [verdict]; rfl)]
        exact verdict
    · have step : scan.run (text ++ [b]) = headerByte { scan with headers := text } b := by
        rw [run_concat (by rw [eq]; exact hv), eq, byte]
        simp only [hs]
      by_cases long : scan.Long (text ++ [b])
      · left
        refine ⟨long, ?_⟩
        rw [step, headerByte_long long]
      · right
        exact ⟨long, step.trans (headerByte_next long absent.1)⟩

section
variable {text : Bytes} {b : UInt8} {len : Nat}

/-- What the server parses of a block that ends is all but its first two bytes. -/
def blockHead (text : Bytes) (len : Nat) : Option PartHead := if len = 0 then none else partHead ((text.take (len + 2)).drop 2)

theorem headerByte_malformed (ended : headersEnd <:+ text ++ [b]) (length : (text ++ [b]).length = len + 4)
    (bad : MAX_PART_HEADERS < scan.headersTotal + len ∨ blockHead (text ++ [b]) len = none) :
    (headerByte { scan with headers := text } b).verdict = some (.refused .unreadable) := by
  by_cases long : scan.Long (text ++ [b])
  · rw [headerByte_long long]
  · have whole : ¬¬headersEnd.isSuffixOf (text ++ [b]) = true := by
      rw [not_not, List.isSuffixOf_iff_suffix]
      exact ended
    have malformed : blockHead (text ++ [b]) len = none := bad.resolve_left (by unfold Long at long; omega)
    refine (congrArg verdict ((if_neg long).trans (if_neg whole))).trans ?_
    have len_eq : (text ++ [b]).length - 4 = len := by rw [length, Nat.add_sub_cancel]
    rw [blockHead] at malformed
    dsimp only
    rw [len_eq, malformed]
    rfl

theorem headerByte_part (ended : headersEnd <:+ text ++ [b]) (length : (text ++ [b]).length = len + 4)
    (room : scan.headersTotal + len ≤ MAX_PART_HEADERS) {head : PartHead} (h : blockHead (text ++ [b]) len = some head) :
    headerByte { scan with headers := text } b =
      { scan with
        headers := text ++ [b], headersTotal := scan.headersTotal + len, values := scan.values.start, form := .name
        state := .part head.kind } := by
  have short : ¬MAX_PART_HEADERS + 4 < scan.headersTotal + (text ++ [b]).length := by omega
  have whole : ¬¬headersEnd.isSuffixOf (text ++ [b]) = true := by
    rw [not_not, List.isSuffixOf_iff_suffix]
    exact ended
  have len_eq : (text ++ [b]).length - 4 = len := by rw [length, Nat.add_sub_cancel]
  refine ((if_neg short).trans (if_neg whole)).trans ?_
  rw [blockHead] at h
  dsimp only
  rw [len_eq, h]

end

theorem headers_ended (hv : scan.verdict = none) (hs : scan.state = .headers) (hh : scan.headers = [])
    (room : scan.headersTotal ≤ MAX_PART_HEADERS) {text : Bytes} {b : UInt8} (absent : ¬headersEnd <:+: text) :
    (scan.Long text ∧ (scan.run (text ++ [b])).verdict = some (.refused .unreadable)) ∨
      (scan.run (text ++ [b]) = headerByte { scan with headers := text } b) := by
  rcases headers_run hv hs hh room absent with ⟨long, verdict⟩ | ⟨-, eq⟩
  · left
    refine ⟨long, ?_⟩
    rw [run_append, run_of_verdict (by rw [verdict]; rfl)]
    exact verdict
  · right
    rw [run_concat (by rw [eq]; exact hv), eq, byte]
    simp only [hs]

end

end MultipartScan

/-! ### Content -/

/-- Whether a part's content refers to a local file. -/
def carries (kind : Kind) (content : Bytes) : Bool :=
  match kind with
  | .file => false
  | .text => refers 3 content
  | .form => refers 3 content || (formValues content).any (refers 3)

/-- How many bytes of text a part has. -/
def textLength (kind : Kind) (content : Bytes) : Nat := if kind = .file then 0 else content.length

theorem textLength_append_le (kind : Kind) (content more : Bytes) : textLength kind content ≤ textLength kind (content ++ more) := by
  unfold textLength
  split
  · exact Nat.le_refl _
  · rw [List.length_append]
    exact Nat.le_add_right ..

/-- Values of which one is being read. -/
theorem Levels.Shown.bytes {values : Levels} {text : Bytes} (h : values.Shown false [text]) (content : Bytes) :
    (content.foldl Levels.byte values).Shown false [text ++ content] := by
  induction content generalizing values text with
  | nil => rwa [List.append_nil]
  | cons b content ih =>
    rw [List.foldl_cons, List.append_cons]
    exact ih (h.byte (by simp) b)

namespace MultipartScan

/-- `content` for each byte. -/
def absorb (kind : Kind) (scan : MultipartScan) (bytes : Bytes) : MultipartScan := bytes.foldl (content kind) scan

theorem absorb_concat (kind : Kind) (scan : MultipartScan) (bytes bytes' : Bytes) :
    scan.absorb kind (bytes ++ bytes') = (scan.absorb kind bytes).absorb kind bytes' := List.foldl_append ..

theorem absorb_next (kind : Kind) (scan : MultipartScan) (next : Matcher) (bytes : Bytes) :
    absorb kind { scan with next } bytes = { scan.absorb kind bytes with next } := by
  induction bytes generalizing scan with
  | nil => rfl
  | cons b bytes ih =>
    have one : content kind { scan with next } b = { content kind scan b with next } := by
      unfold content
      split
      · rfl
      · split <;> rfl
    change absorb kind (content kind { scan with next } b) bytes = _
    rw [one]
    exact ih (content kind scan b)

theorem absorb_file (scan : MultipartScan) (bytes : Bytes) : scan.absorb .file bytes = scan := by
  induction bytes generalizing scan with
  | nil => rfl
  | cons b bytes ih => exact ih scan

theorem absorb_text (scan : MultipartScan) (bytes : Bytes) :
    scan.absorb .text bytes =
      { scan with textTotal := scan.textTotal + bytes.length, values := bytes.foldl Levels.byte scan.values } := by
  induction bytes generalizing scan with
  | nil => rfl
  | cons b bytes ih =>
    change absorb .text { scan with textTotal := scan.textTotal + 1, values := scan.values.byte b } bytes = _
    rw [ih]
    simp only [List.length_cons, List.foldl_cons, Nat.add_assoc, Nat.add_comm 1]

theorem absorb_form (scan : MultipartScan) (bytes : Bytes) :
    scan.absorb .form bytes =
      { scan with
        textTotal := scan.textTotal + bytes.length, values := bytes.foldl Levels.byte scan.values
        form := (scan.form.bytes scan.formValues bytes).1, formValues := (scan.form.bytes scan.formValues bytes).2 } := by
  induction bytes generalizing scan with
  | nil => rfl
  | cons b bytes ih =>
    change absorb .form { scan with
      textTotal := scan.textTotal + 1, values := scan.values.byte b
      form := (scan.form.byte scan.formValues b).1, formValues := (scan.form.byte scan.formValues b).2 } bytes = _
    rw [ih]
    simp only [List.length_cons, List.foldl_cons, Nat.add_assoc, Nat.add_comm 1]
    rfl

/-- At the end of a form part's content, its last value is whole. -/
def close (kind : Kind) (scan : MultipartScan) : MultipartScan :=
  if kind = .form then
    { scan with form := (scan.form.atEnd scan.formValues).1, formValues := (scan.form.atEnd scan.formValues).2 }
  else scan

/-- What is asked of a part after every byte. -/
def check (ended : Bool) (scan : MultipartScan) : MultipartScan :=
  if scan.values.found || scan.formValues.found then scan.refuse .localFile
  else if MAX_PARAMETERS < scan.textTotal then scan.refuse .tooLarge
  else if ended then { scan with state := .last none }
  else scan

theorem partByte_eq (scan : MultipartScan) (kind : Kind) (b : UInt8) :
    scan.partByte kind b =
      let read := absorb kind { scan with next := (scan.next.step b).1 } (scan.next.step b).2.1
      check (scan.next.step b).2.2 (if (scan.next.step b).2.2 then read.close kind else read) := by
  unfold partByte close check absorb
  generalize scan.next.step b = stepped
  obtain ⟨next, bytes, ended⟩ := stepped
  cases ended with
  | false => rfl
  | true => cases kind <;> rfl

theorem check_clear {scan : MultipartScan} (ended : Bool) (found : (scan.values.found || scan.formValues.found) = false)
    (room : scan.textTotal ≤ MAX_PARAMETERS) : scan.check ended = if ended then { scan with state := .last none } else scan := by
  rw [check, found, if_neg Bool.false_ne_true, if_neg (Nat.not_lt.mpr room)]

theorem check_refused {scan : MultipartScan} (ended : Bool)
    (bad : (scan.values.found || scan.formValues.found) = true ∨ MAX_PARAMETERS < scan.textTotal) :
    ∃ refusal, (scan.check ended).verdict = some (.refused refusal) := by
  rw [check]
  by_cases found : (scan.values.found || scan.formValues.found) = true
  · rw [if_pos found]
    exact ⟨_, rfl⟩
  · rw [if_neg found, if_pos (bad.resolve_left found)]
    exact ⟨_, rfl⟩

/-! ### A part -/

/-- A part that refers to a local file, or goes past the bound on text. -/
def Bad (kind : Kind) (total : Nat) (content : Bytes) : Prop :=
  carries kind content ∨ MAX_PARAMETERS < total + textLength kind content

/-- `scan` is at the start of a part's content. -/
structure AtPart (scan : MultipartScan) (kind : Kind) : Prop where
  verdict : scan.verdict = none
  state : scan.state = .part kind
  fresh : scan.next.Fresh
  values : scan.values.Shown false [[]]
  form : scan.form = .name
  formValues : scan.formValues.found = false
  room : scan.textTotal ≤ MAX_PARAMETERS

section
variable {scan : MultipartScan} {kind : Kind}

theorem absorb_frame (kind : Kind) (scan : MultipartScan) (bytes : Bytes) :
    (scan.absorb kind bytes).verdict = scan.verdict ∧ (scan.absorb kind bytes).state = scan.state ∧
      (scan.absorb kind bytes).next = scan.next ∧ (scan.absorb kind bytes).headersTotal = scan.headersTotal ∧
      (scan.absorb kind bytes).textTotal = scan.textTotal + textLength kind bytes := by
  cases kind with
  | file =>
    rw [absorb_file]
    exact ⟨rfl, rfl, rfl, rfl, rfl⟩
  | text =>
    rw [absorb_text]
    exact ⟨rfl, rfl, rfl, rfl, rfl⟩
  | form =>
    rw [absorb_form]
    exact ⟨rfl, rfl, rfl, rfl, rfl⟩

theorem AtPart.found_values (h : scan.AtPart kind) (bytes : Bytes) :
    (bytes.foldl Levels.byte scan.values).found = refers 3 bytes := by
  rw [(h.values.bytes bytes).found, Bool.false_or, List.any_cons, List.any_nil, Bool.or_false, List.nil_append]

/-- What is found in content so far is carried by it, whatever it goes on with. -/
theorem AtPart.found (h : scan.AtPart kind) (bytes : Bytes)
    (found : ((scan.absorb kind bytes).values.found || (scan.absorb kind bytes).formValues.found) = true) (more : Bytes) :
    carries kind (bytes ++ more) = true := by
  have started : scan.values.found = false := h.values.found
  cases kind with
  | file =>
    rw [absorb_file, started, h.formValues] at found
    cases found
  | text =>
    rw [absorb_text, h.formValues, Bool.or_false] at found
    rw [carries]
    exact Form.refers_append 3 more ((h.found_values bytes).symm.trans found)
  | form =>
    rw [absorb_form, Bool.or_eq_true, h.form] at found
    rw [carries, Bool.or_eq_true]
    refine found.imp (fun found => ?_) fun found => ?_
    · exact Form.refers_append 3 more ((h.found_values bytes).symm.trans found)
    · have := Form.bytes_found scan.formValues bytes more found
      rwa [h.formValues, Bool.false_or] at this

/-- What is found in a part's whole content is what it carries. -/
theorem AtPart.found_close (h : scan.AtPart kind) (bytes : Bytes) :
    (((scan.absorb kind bytes).close kind).values.found || ((scan.absorb kind bytes).close kind).formValues.found) =
      carries kind bytes := by
  have started : scan.values.found = false := h.values.found
  cases kind with
  | file =>
    rw [absorb_file]
    change (scan.values.found || scan.formValues.found) = false
    rw [started, h.formValues]
    rfl
  | text =>
    rw [absorb_text]
    change ((bytes.foldl Levels.byte scan.values).found || scan.formValues.found) = refers 3 bytes
    rw [h.found_values, h.formValues, Bool.or_false]
  | form =>
    rw [absorb_form]
    change ((bytes.foldl Levels.byte scan.values).found ||
      ((scan.form.bytes scan.formValues bytes).1.atEnd (scan.form.bytes scan.formValues bytes).2).2.found) = _
    rw [h.found_values, h.form, Form.bytes_atEnd, h.formValues, Bool.false_or, carries]

/-- The next byte of a part whose content so far is absorbed. -/
theorem AtPart.run_concat (h : scan.AtPart kind) {text out : Bytes} {next : Matcher}
    (eq : scan.run text = { scan.absorb kind out with next }) (b : UInt8) :
    scan.run (text ++ [b]) =
      let read := { scan.absorb kind (out ++ (next.step b).2.1) with next := (next.step b).1 }
      check (next.step b).2.2 (if (next.step b).2.2 then close kind read else read) := by
  obtain ⟨verdict, state, -⟩ := absorb_frame kind scan out
  have step : scan.run (text ++ [b]) = partByte { scan.absorb kind out with next } kind b := by
    rw [MultipartScan.run_concat (by rw [eq]; exact verdict.trans h.verdict), eq, byte]
    simp only [state, h.state]
  rw [step, partByte_eq, absorb_concat]
  exact congrArg (fun read => check (next.step b).2.2 (if (next.step b).2.2 then close kind read else read))
    (absorb_next kind (scan.absorb kind out) (next.step b).1 (next.step b).2.1)

/-- Content before its delimiter is whole. -/
theorem AtPart.run (h : scan.AtPart kind) {text : Bytes} (absent : ¬scan.next.word <:+: text) :
    (∃ refusal, (scan.run text).verdict = some (.refused refusal) ∧
        ∀ more, Bad kind scan.textTotal ((scan.next.bytes text).2 ++ more)) ∨
      (scan.run text = { scan.absorb kind (scan.next.bytes text).2 with next := (scan.next.bytes text).1 } ∧
        ((scan.absorb kind (scan.next.bytes text).2).values.found ||
          (scan.absorb kind (scan.next.bytes text).2).formValues.found) = false ∧
        scan.textTotal + textLength kind (scan.next.bytes text).2 ≤ MAX_PARAMETERS) := by
  induction text using List.reverseRecOn with
  | nil =>
    right
    have started : scan.values.found = false := h.values.found
    refine ⟨rfl, ?_, ?_⟩
    · change (scan.values.found || scan.formValues.found) = false
      rw [started, h.formValues]
      rfl
    · have : textLength kind (scan.next.bytes []).2 = 0 := by
        unfold textLength
        split <;> rfl
      rw [this]
      exact h.room
  | append_singleton text b ih =>
    have ended := h.fresh.bytes_goes_on absent
    rw [List.infix_concat_iff, not_or] at absent
    rcases ih absent.2 with ⟨refusal, verdict, bad⟩ | ⟨eq, -, -⟩
    · left
      refine ⟨refusal, ?_, fun more => ?_⟩
      · rw [run_append, run_of_verdict (by rw [verdict]; rfl)]
        exact verdict
      · rw [Matcher.bytes_concat, List.append_assoc]
        exact bad _
    · have step := h.run_concat eq b
      rw [ended] at step
      rw [step, Matcher.bytes_concat]
      dsimp only
      generalize (scan.next.bytes text).2 ++ ((scan.next.bytes text).1.step b).2.1 = out
      generalize ((scan.next.bytes text).1.step b).1 = next
      obtain ⟨-, -, -, -, total⟩ := absorb_frame kind scan out
      by_cases bad : ((scan.absorb kind out).values.found || (scan.absorb kind out).formValues.found) = true ∨
          MAX_PARAMETERS < (scan.absorb kind out).textTotal
      · left
        obtain ⟨refusal, refused⟩ := @check_refused { scan.absorb kind out with next } false bad
        refine ⟨refusal, refused, fun more => ?_⟩
        rcases bad with found | long
        · exact .inl (h.found out found more)
        · refine .inr (Nat.lt_of_lt_of_le long ?_)
          rw [total]
          exact Nat.add_le_add_left (textLength_append_le kind out more) _
      · right
        rw [not_or, Bool.not_eq_true, Nat.not_lt] at bad
        exact ⟨@check_clear { scan.absorb kind out with next } false bad.1 bad.2, bad.1, total ▸ bad.2⟩

/-- A part at its delimiter. -/
theorem AtPart.ended (h : scan.AtPart kind) {text : Bytes} {b : UInt8} {content : Bytes} (absent : ¬scan.next.word <:+: text)
    (found : text ++ [b] = content ++ scan.next.word) :
    (Bad kind scan.textTotal content ∧ ∃ refusal, (scan.run (text ++ [b])).verdict = some (.refused refusal)) ∨
      (¬Bad kind scan.textTotal content ∧ ∃ next form formValues values, next.Fresh ∧ next.word = scan.next.word ∧
        values.found = false ∧ formValues.found = false ∧
        scan.run (text ++ [b]) =
          { scan with
            next, form, formValues, values, textTotal := scan.textTotal + textLength kind content, state := .last none }) := by
  have ends : scan.next.word <:+ text ++ [b] := found ▸ List.suffix_append ..
  obtain ⟨ended, fresh, split⟩ := h.fresh.bytes_ended absent ends
  rw [found, List.append_cancel_right_eq] at split
  rcases h.run absent with ⟨refusal, verdict, bad⟩ | ⟨eq, -, -⟩
  · left
    refine ⟨split ▸ bad _, refusal, ?_⟩
    rw [run_append, run_of_verdict (by rw [verdict]; rfl)]
    exact verdict
  · have step := h.run_concat eq b
    rw [ended, split] at step
    have word : ((scan.next.bytes text).1.step b).1.word = scan.next.word := by rw [Matcher.step_word, Matcher.bytes_word]
    generalize ((scan.next.bytes text).1.step b).1 = next at step fresh word
    obtain ⟨read, step, carried, total, frame⟩ : ∃ read, scan.run (text ++ [b]) = check true read ∧
        (read.values.found || read.formValues.found) = carries kind content ∧
        read.textTotal = scan.textTotal + textLength kind content ∧
        read = { scan with
          next, form := read.form, formValues := read.formValues, values := read.values, textTotal := read.textTotal } := by
      refine ⟨close kind { scan.absorb kind content with next }, step, ?_, ?_, ?_⟩
      · rw [← h.found_close content]
        cases kind <;> rfl
      · rw [← (absorb_frame kind scan content).2.2.2.2]
        cases kind <;> rfl
      · cases kind with
        | file => rw [absorb_file]; rfl
        | text => rw [absorb_text]; rfl
        | form => rw [absorb_form]; rfl
    rw [step]
    by_cases bad : Bad kind scan.textTotal content
    · left
      refine ⟨bad, check_refused true ?_⟩
      rw [carried, total]
      exact bad
    · right
      rw [Bad, not_or, Bool.not_eq_true, Nat.not_lt] at bad
      have clear := carried.trans bad.1
      refine ⟨not_or.mpr ⟨Bool.not_eq_true _ ▸ bad.1, Nat.not_lt.mpr bad.2⟩, next, read.form, read.formValues, read.values, fresh, word,
        (Bool.or_eq_false_iff.mp clear).1, (Bool.or_eq_false_iff.mp clear).2, ?_⟩
      rw [check_clear true clear (total ▸ bad.2), if_pos rfl, ← total]
      conv_lhs => rw [frame]

end

/-! ### After a part -/

/-- The closing delimiter. -/
theorem last_closed {scan : MultipartScan} (hv : scan.verdict = none) (hs : scan.state = .last none) (rest : Bytes) :
    (scan.run (dash :: dash :: rest)).verdict = some .clean := by
  have first : scan.byte dash = { scan with state := .last (some dash) } := by
    rw [byte]
    simp only [hs]
  have second : run { scan with state := .last (some dash) } (dash :: rest) =
      run { scan with state := .last (some dash), verdict := some .clean } rest :=
    @run_cons { scan with state := .last (some dash) } hv dash rest
  rw [run_cons hv, first, second, run_of_verdict rfl]

/-- Anything else is the next part's header block. -/
theorem last_next {scan : MultipartScan} (hv : scan.verdict = none) (hs : scan.state = .last none) {c d : UInt8}
    (other : ¬(c = dash && d = dash) = true) (rest : Bytes) :
    scan.run (c :: d :: rest) = ({ scan with headers := [], state := .headers } : MultipartScan).run (c :: d :: rest) := by
  have first : scan.byte c = { scan with state := .last (some c) } := by
    rw [byte]
    simp only [hs]
  have second : run { scan with state := .last (some c) } (d :: rest) = (byte { scan with state := .last (some c) } d).run rest :=
    @run_cons { scan with state := .last (some c) } hv d rest
  have byte_d : byte { scan with state := .last (some c) } d =
      (let next := headerByte { scan with headers := [], state := .headers } c
       if next.verdict.isNone then next.headerByte d else next) := if_neg other
  have whole : ({ scan with headers := [], state := .headers } : MultipartScan).run (c :: d :: rest) =
      (headerByte { scan with headers := [], state := .headers } c).run (d :: rest) :=
    @run_cons { scan with headers := [], state := .headers } hv c (d :: rest)
  rw [run_cons hv, first, second, byte_d, whole]
  by_cases long : Long { scan with headers := [], state := .headers } ([] ++ [c])
  · rw [show headerByte { scan with headers := [], state := .headers } c = _ from
      @headerByte_long { scan with headers := [], state := .headers } [] c long]
    exact (run_of_verdict rfl rest).trans (run_of_verdict rfl (d :: rest)).symm
  · have more : ¬headersEnd <:+ [] ++ [c] := fun hs => absurd hs.length_le (by simp)
    rw [show headerByte { scan with headers := [], state := .headers } c = _ from
      @headerByte_next { scan with headers := [], state := .headers } [] c long more]
    dsimp only
    rw [hv]
    exact (@run_cons { scan with headers := [] ++ [c], state := .headers, verdict := none } rfl d rest).symm

/-! ### Whole bodies -/

/-- `scan` has read the delimiter before a part. -/
structure Ready (scan : MultipartScan) (word : Bytes) : Prop where
  verdict : scan.verdict = none
  state : scan.state = .headers
  headers : scan.headers = []
  fresh : scan.next.Fresh
  word : scan.next.word = word
  values : scan.values.found = false
  formValues : scan.formValues.found = false
  headersTotal : scan.headersTotal ≤ MAX_PART_HEADERS
  textTotal : scan.textTotal ≤ MAX_PARAMETERS

end MultipartScan

/-- The bytes of text in the parts of a body. -/
def textBytes (parts : List Part) : Nat := (parts.map fun part => textLength part.kind part.value).sum

/-- No text or form part refers to a local file, and they are not too long, coming after `total` bytes of text. -/
def Harmless (total : Nat) (parts : List Part) : Prop :=
  (∀ part ∈ parts, carries part.kind part.value = false) ∧ total + textBytes parts ≤ MAX_PARAMETERS

theorem harmless_cons {total : Nat} {part : Part} {parts : List Part} :
    Harmless total (part :: parts) ↔
      ¬MultipartScan.Bad part.kind total part.value ∧ Harmless (total + textLength part.kind part.value) parts := by
  unfold Harmless MultipartScan.Bad textBytes
  rw [List.map_cons, List.sum_cons, not_or, Bool.not_eq_true, ← Nat.add_assoc]
  simp only [List.forall_mem_cons]
  constructor
  · rintro ⟨⟨first, others⟩, room⟩
    exact ⟨⟨first, by omega⟩, others, room⟩
  · rintro ⟨⟨first, -⟩, others, room⟩
    exact ⟨⟨first, others⟩, room⟩

/-- A body whose parts are read comes out clean when they are harmless. -/
def Accepted (total : Nat) (parts : Option (List Part)) : Prop := ∃ ps, parts = some ps ∧ Harmless total ps

theorem not_accepted_none (total : Nat) : ¬Accepted total none := nofun

theorem accepted_map_cons {total : Nat} {part : Part} {parts : Option (List Part)} :
    Accepted total (parts.map (part :: ·)) ↔
      ¬MultipartScan.Bad part.kind total part.value ∧ Accepted (total + textLength part.kind part.value) parts := by
  unfold Accepted
  constructor
  · rintro ⟨ps, hps, harmless⟩
    obtain ⟨others, rfl, rfl⟩ := Option.map_eq_some_iff.mp hps
    obtain ⟨first, harmless⟩ := harmless_cons.mp harmless
    exact ⟨first, others, rfl, harmless⟩
  · rintro ⟨first, others, rfl, harmless⟩
    exact ⟨part :: others, rfl, harmless_cons.mpr ⟨first, harmless⟩⟩

namespace MultipartScan

theorem not_clean_of_refused {scan : MultipartScan} {text : Bytes} {refusal : Refusal}
    (h : (scan.run text).verdict = some (.refused refusal)) (more : Bytes) : (scan.run (text ++ more)).verdict ≠ some .clean := by
  rw [run_append, run_of_verdict (by rw [h]; rfl), h]
  exact nofun

/-- A part's content and the parts after it, if those are read as they should be. -/
theorem AtPart.run_clean {scan : MultipartScan} {word : Bytes} (ne : word ≠ []) {head : PartHead} (h : scan.AtPart head.kind)
    (hw : scan.next.word = word) (room : scan.headersTotal ≤ MAX_PART_HEADERS) {content : Bytes}
    (after : ∀ {scan' : MultipartScan} {rest : Bytes}, rest.length < content.length → scan'.Ready word →
      ((scan'.run rest).verdict = some .clean ↔ Accepted scan'.textTotal (partsFrom word scan'.headersTotal rest))) :
    (scan.run content).verdict = some .clean ↔
      Accepted scan.textTotal
        (match some head, find content word with
        | some head, some stop =>
          let part : Part := { kind := head.kind, name := head.name, value := content.take stop }
          let after := content.drop (stop + word.length)
          if _h : after.length < 2 then none
          else if [dash, dash].isPrefixOf after then some [part]
          else (partsFrom word scan.headersTotal after).map (part :: ·)
        | _, _ => none) := by
  subst hw
  cases hstop : find content scan.next.word with
  | none =>
    refine iff_of_false ?_ (not_accepted_none _)
    rcases h.run (find_none ne hstop) with ⟨refusal, verdict, -⟩ | ⟨eq, -, -⟩
    · rw [verdict]
      exact nofun
    · rw [eq]
      change (scan.absorb head.kind _).verdict ≠ _
      rw [(absorb_frame head.kind scan _).1, h.verdict]
      exact nofun
  | some stop =>
    obtain ⟨text, b, split, absent, ends⟩ := find_split ne hstop
    have whole : content = text ++ [b] ++ content.drop (stop + scan.next.word.length) := by
      rw [← split]
      exact (List.take_append_drop ..).symm
    have shorter : (content.drop (stop + scan.next.word.length)).length < content.length := by
      conv_rhs => rw [whole, List.length_append, List.length_append, List.length_singleton]
      omega
    dsimp only
    generalize content.drop (stop + scan.next.word.length) = rest at whole shorter ⊢
    rcases h.ended absent ends with ⟨bad, refusal, verdict⟩ | ⟨harmless, next, form, formValues, values, fresh, word, hv, hf, eq⟩
    · refine iff_of_false ?_ ?_
      · rw [whole]
        exact not_clean_of_refused verdict _
      · rintro ⟨ps, hps, harmless⟩
        have first : ∃ others, ps = { kind := head.kind, name := head.name, value := content.take stop } :: others := by
          split at hps
          · cases hps
          · split at hps
            · exact ⟨[], (Option.some.inj hps).symm⟩
            · obtain ⟨others, -, rfl⟩ := Option.map_eq_some_iff.mp hps
              exact ⟨others, rfl⟩
        obtain ⟨others, rfl⟩ := first
        exact (harmless_cons.mp harmless).1 bad
    · have ended : ({ scan with
          next, form, formValues, values, textTotal := scan.textTotal + textLength head.kind (content.take stop)
          state := .last none } : MultipartScan).verdict = none := h.verdict
      have within : scan.textTotal + textLength head.kind (content.take stop) ≤ MAX_PARAMETERS :=
        Nat.not_lt.mp fun lt => harmless (.inr lt)
      have continued : scan.run content = MultipartScan.run
          { scan with
            next, form, formValues, values, textTotal := scan.textTotal + textLength head.kind (content.take stop)
            state := .last none } rest := by
        conv_lhs => rw [whole, run_append, eq]
      rw [continued]
      rcases rest with _ | ⟨c, _ | ⟨d, rest⟩⟩
      · refine iff_of_false ?_ (not_accepted_none _)
        change scan.verdict ≠ _
        rw [h.verdict]
        exact nofun
      · refine iff_of_false ?_ (not_accepted_none _)
        rw [run_cons ended]
        change scan.verdict ≠ _
        rw [h.verdict]
        exact nofun
      · rw [dif_neg (by simp)]
        by_cases closing : (c = dash && d = dash) = true
        · obtain ⟨rfl, rfl⟩ : c = dash ∧ d = dash := by simpa using closing
          rw [last_closed ended rfl, if_pos (by simp)]
          refine iff_of_true rfl ⟨_, rfl, harmless_cons.mpr ⟨harmless, nofun, ?_⟩⟩
          exact within
        · have other : ¬[dash, dash].isPrefixOf (c :: d :: rest) = true := by
            rw [List.isPrefixOf_iff_prefix]
            intro hp
            obtain ⟨hc, hp⟩ := List.cons_prefix_cons.mp hp
            obtain ⟨hd, -⟩ := List.cons_prefix_cons.mp hp
            exact closing (by rw [← hc, ← hd]; rfl)
          have ready : Ready { scan with
              next, form, formValues, values, textTotal := scan.textTotal + textLength head.kind (content.take stop)
              headers := [], state := .headers } scan.next.word :=
            ⟨h.verdict, rfl, rfl, fresh, word, hv, hf, room, within⟩
          rw [last_next ended rfl closing, if_neg other, accepted_map_cons, after shorter ready]
          exact ⟨fun accepted => ⟨harmless, accepted⟩, And.right⟩

/-- A part's header block, the part after it and the parts after that. -/
theorem Ready.run_clean {scan : MultipartScan} {word : Bytes} (ne : word ≠ []) (h : scan.Ready word) (rest : Bytes) :
    (scan.run rest).verdict = some .clean ↔ Accepted scan.textTotal (partsFrom word scan.headersTotal rest) := by
  induction hn : rest.length using Nat.strong_induction_on generalizing scan rest with
  | _ n ih =>
    subst hn
    rw [partsFrom]
    cases hlen : find rest headersEnd with
    | none =>
      refine iff_of_false ?_ (not_accepted_none _)
      rcases headers_run h.verdict h.state h.headers h.headersTotal (find_none (by decide) hlen) with ⟨-, verdict⟩ | ⟨-, eq⟩
      · rw [verdict]
        exact nofun
      · rw [eq]
        change scan.verdict ≠ _
        rw [h.verdict]
        exact nofun
    | some len =>
      obtain ⟨text, b, split, absent, ends⟩ := find_split (by decide) hlen
      have le := find_le (by decide) hlen
      have length : (text ++ [b]).length = len + 4 := by rw [← split, List.length_take, Nat.min_eq_left le]; rfl
      have whole : rest = text ++ [b] ++ rest.drop (len + 4) := by
        rw [← split]
        exact (List.take_append_drop ..).symm
      have block : blockHead (text ++ [b]) len = if len = 0 then none else partHead ((rest.take (len + 2)).drop 2) := by
        rw [blockHead, ← split, List.take_take, Nat.min_eq_left (Nat.add_le_add_left (by decide) len)]
      have hends : headersEnd <:+ text ++ [b] := ends ▸ List.suffix_append ..
      dsimp only
      by_cases bad : MAX_PART_HEADERS < scan.headersTotal + len ∨ blockHead (text ++ [b]) len = none
      · refine iff_of_false ?_ ?_
        · rw [whole]
          rcases headers_ended h.verdict h.state h.headers h.headersTotal absent with ⟨-, verdict⟩ | eq
          · exact not_clean_of_refused verdict _
          · exact not_clean_of_refused ((congrArg MultipartScan.verdict eq).trans (headerByte_malformed hends length bad)) _
        · by_cases zero : len = 0 ∨ MAX_PART_HEADERS < scan.headersTotal + len
          · rw [if_pos zero]
            exact not_accepted_none _
          · rw [not_or] at zero
            rw [block, if_neg zero.1] at bad
            rw [if_neg (not_or.mpr zero), bad.resolve_left zero.2]
            exact not_accepted_none _
      · rw [not_or, Nat.not_lt] at bad
        obtain ⟨room, parsed⟩ := bad
        obtain ⟨head, hhead⟩ := Option.ne_none_iff_exists'.mp parsed
        have nonzero : len ≠ 0 := by
          rintro rfl
          rw [block, if_pos rfl] at hhead
          cases hhead
        have hpart : partHead ((rest.take (len + 2)).drop 2) = some head := by rwa [block, if_neg nonzero] at hhead
        have started : scan.run (text ++ [b]) =
            { scan with
              headers := text ++ [b], headersTotal := scan.headersTotal + len, values := scan.values.start, form := .name
              state := .part head.kind } := by
          rcases headers_ended h.verdict h.state h.headers h.headersTotal absent with ⟨long, -⟩ | eq
          · unfold Long at long
            rw [List.length_append, List.length_singleton] at length
            omega
          · exact eq.trans (headerByte_part hends length room hhead)
        have atPart : AtPart
            { scan with
              headers := text ++ [b], headersTotal := scan.headersTotal + len, values := scan.values.start, form := .name
              state := .part head.kind } head.kind := by
          have values : scan.values.start.Shown false [[]] := h.values ▸ scan.values.shown_nil.start
          exact ⟨h.verdict, rfl, h.fresh, values, rfl, h.formValues, h.textTotal⟩
        rw [if_neg (not_or.mpr ⟨nonzero, Nat.not_lt.mpr room⟩), hpart]
        have continued : scan.run rest = MultipartScan.run
            { scan with
              headers := text ++ [b], headersTotal := scan.headersTotal + len, values := scan.values.start, form := .name
              state := .part head.kind } (rest.drop (len + 4)) := by
          conv_lhs => rw [whole, run_append, started]
        rw [continued]
        refine atPart.run_clean ne h.word room fun {_ rest'} lt ready' => ih rest'.length ?_ ready' rest' rfl
        rw [List.length_drop] at lt
        omega

/-! ### The whole scan -/

/-- The values have not found anything and the text is within its bound, unless there is a verdict. -/
def Clear (scan : MultipartScan) : Prop :=
  scan.verdict = none → (scan.values.found || scan.formValues.found) = false ∧ scan.textTotal ≤ MAX_PARAMETERS

theorem clear_new (boundary : Bytes) : (new boundary).Clear := fun _ => ⟨rfl, Nat.zero_le _⟩

theorem clear_of_verdict {scan : MultipartScan} (h : scan.verdict.isSome) : scan.Clear := by
  intro none
  rw [none] at h
  cases h

theorem Clear.headerByte {scan : MultipartScan} (h : scan.Clear) (b : UInt8) : (scan.headerByte b).Clear := by
  unfold MultipartScan.headerByte
  dsimp only
  split
  · exact clear_of_verdict rfl
  · split
    · exact h
    · split
      · exact clear_of_verdict rfl
      · intro none
        obtain ⟨found, room⟩ := h none
        have start : scan.values.start.found = scan.values.found := by
          rw [scan.values.shown_nil.start.found]
          exact Bool.or_false _
        refine ⟨?_, room⟩
        change (scan.values.start.found || scan.formValues.found) = false
        rw [start, found]

theorem clear_check (ended : Bool) (scan : MultipartScan) : (scan.check ended).Clear := by
  unfold check
  split
  · exact clear_of_verdict rfl
  · split
    · exact clear_of_verdict rfl
    · rename_i found room
      have clear := And.intro (Bool.eq_false_iff.mpr found) (Nat.not_lt.mp room)
      split <;> exact fun _ => clear

theorem Clear.byte {scan : MultipartScan} (h : scan.Clear) (b : UInt8) : (scan.byte b).Clear := by
  unfold MultipartScan.byte
  split
  · dsimp only
    split <;> exact h
  · exact h.headerByte b
  · rw [partByte_eq]
    exact clear_check _ _
  · exact h
  · split
    · exact clear_of_verdict rfl
    · rename_i first _ _
      have opened : Clear (MultipartScan.headerByte { scan with headers := [], state := .headers } first) :=
        @Clear.headerByte { scan with headers := [], state := .headers } h first
      dsimp only
      split
      · exact opened.headerByte b
      · exact opened

/-- The bytes the scan passes over change nothing. -/
theorem Clear.byte_skipped {scan : MultipartScan} (h : scan.Clear) (hv : scan.verdict = none) {data : Bytes} {b : UInt8}
    (hb : 0 < scan.skipped (b :: data)) : scan.byte b = scan ∧ scan.skipped (b :: data) = scan.skipped data + 1 := by
  unfold skipped at hb ⊢
  split at hb
  · rename_i hs
    obtain ⟨step, one⟩ := Matcher.step_skipped hb
    refine ⟨?_, one⟩
    rw [MultipartScan.byte]
    simp only [hs, step]
    rw [if_neg Bool.false_ne_true, ← hs]
  · rename_i hs
    obtain ⟨step, one⟩ := Matcher.step_skipped hb
    refine ⟨?_, one⟩
    rw [MultipartScan.byte]
    simp only [hs]
    rw [partByte_eq, step]
    dsimp only
    rw [absorb_file]
    exact check_clear false (h hv).1 (h hv).2
  · exact absurd hb (Nat.lt_irrefl 0)

theorem feed_nil {scan : MultipartScan} {data : Bytes} (hv : scan.verdict = none) (h : data.drop (scan.skipped data) = []) :
    scan.feed data = scan := by
  rw [feed, if_neg (by rw [hv]; exact Bool.false_ne_true)]
  split
  · rfl
  · rename_i h'
    rw [h] at h'
    cases h'

theorem feed_cons {scan : MultipartScan} {data rest : Bytes} {b : UInt8} (hv : scan.verdict = none)
    (h : data.drop (scan.skipped data) = b :: rest) : scan.feed data = (scan.byte b).feed rest := by
  rw [feed, if_neg (by rw [hv]; exact Bool.false_ne_true)]
  split
  · rename_i h'
    rw [h] at h'
    cases h'
  · rename_i h'
    rw [h] at h'
    cases h'
    rfl

/-- Feeding a piece is feeding its bytes one by one. -/
theorem Clear.feed_eq {scan : MultipartScan} (h : scan.Clear) (data : Bytes) : scan.feed data = scan.run data := by
  induction data generalizing scan with
  | nil =>
    cases hv : scan.verdict with
    | some verdict => rw [feed, if_pos (by rw [hv]; rfl)]; rfl
    | none => exact feed_nil hv List.drop_nil
  | cons b data ih =>
    cases hv : scan.verdict with
    | some verdict => rw [feed, if_pos (by rw [hv]; rfl), run_of_verdict (by rw [hv]; rfl)]
    | none =>
      rw [run_cons hv]
      cases hk : scan.skipped (b :: data) with
      | zero => rw [feed_cons hv (by rw [hk]; rfl), ih (h.byte b)]
      | succ k =>
        obtain ⟨same, one⟩ := h.byte_skipped hv (by rw [hk]; exact Nat.succ_pos k)
        rw [same, ← ih h]
        have drop : (b :: data).drop (scan.skipped (b :: data)) = data.drop (scan.skipped data) := by
          rw [one, List.drop_succ_cons]
        cases hd : data.drop (scan.skipped data) with
        | nil => rw [feed_nil hv (drop.trans hd), feed_nil hv hd]
        | cons c rest => rw [feed_cons hv (drop.trans hd), feed_cons hv hd]

theorem new_first (boundary : Bytes) :
    (new boundary).first.Fresh ∧ (new boundary).first.word = [dash, dash] ++ boundary.take MAX_BOUNDARY_LEN :=
  ⟨Matcher.new_fresh _ _ (by decide) (take_room boundary (by decide)), rfl⟩

theorem new_next (boundary : Bytes) :
    (new boundary).next.Fresh ∧ (new boundary).next.word = [CR, LF, dash, dash] ++ boundary.take MAX_BOUNDARY_LEN :=
  ⟨Matcher.new_fresh _ _ (by decide) (take_room boundary (by decide)), rfl⟩

theorem finish_eq_clean (scan : MultipartScan) : scan.finish = .clean ↔ scan.verdict = some .clean := by
  unfold finish
  cases scan.verdict with
  | none => exact ⟨nofun, nofun⟩
  | some verdict => exact ⟨congrArg some, Option.some.inj⟩

end MultipartScan

/-- The scan of a body comes out clean exactly where the whole body has parts, none of which refers to a local file, and the
    text in them is within the bound. -/
theorem scan_clean_iff (boundary body : Bytes) :
    ((MultipartScan.new boundary).feed body).finish = .clean ↔
      ∃ ps, parts boundary body = some ps ∧ (∀ part ∈ ps, carries part.kind part.value = false) ∧ textBytes ps ≤ MAX_PARAMETERS := by
  obtain ⟨freshFirst, wordFirst⟩ := MultipartScan.new_first boundary
  obtain ⟨freshNext, wordNext⟩ := MultipartScan.new_next boundary
  have ne : (MultipartScan.new boundary).first.word ≠ [] := by
    rw [wordFirst]
    simp
  rw [MultipartScan.finish_eq_clean, (MultipartScan.clear_new boundary).feed_eq]
  unfold parts
  cases hs : find body (MultipartScan.new boundary).first.word with
  | none =>
    have absent := find_none ne hs
    refine iff_of_false ?_ ?_
    · rw [MultipartScan.prologue_run freshFirst rfl rfl absent]
      exact nofun
    · rw [wordFirst] at hs
      rintro ⟨ps, hps, -⟩
      obtain ⟨start, hstart, -⟩ := Option.bind_eq_some_iff.mp hps
      cases hs.symm.trans hstart
  | some start =>
    obtain ⟨text, b, split, absent, ends⟩ := find_split ne hs
    have whole : body = text ++ [b] ++ body.drop (start + (MultipartScan.new boundary).first.word.length) := by
      rw [← split]
      exact (List.take_append_drop ..).symm
    have found : (MultipartScan.new boundary).first.word <:+ text ++ [b] := by
      rw [ends]
      exact List.suffix_append ..
    obtain ⟨first, eq⟩ := MultipartScan.prologue_ended freshFirst rfl rfl absent found
    have ready : MultipartScan.Ready { MultipartScan.new boundary with first, headers := [], state := .headers }
        ([CR, LF, dash, dash] ++ boundary.take MAX_BOUNDARY_LEN) :=
      ⟨rfl, rfl, rfl, freshNext, wordNext, rfl, rfl, Nat.zero_le _, Nat.zero_le _⟩
    have continued : (MultipartScan.new boundary).run body =
        MultipartScan.run { MultipartScan.new boundary with first, headers := [], state := .headers }
          (body.drop (start + (MultipartScan.new boundary).first.word.length)) := by
      conv_lhs => rw [whole, MultipartScan.run_append, eq]
    rw [continued, ready.run_clean (by simp)]
    rw [wordFirst] at hs
    change Accepted 0 (partsFrom _ 0 (body.drop (start + (MultipartScan.new boundary).first.word.length))) ↔
      ∃ ps, (find body ([dash, dash] ++ boundary.take MAX_BOUNDARY_LEN)).bind _ = some ps ∧ _
    rw [hs]
    unfold Accepted Harmless
    simp only [Nat.zero_add]
    rfl

end Tgin.LocalFiles
