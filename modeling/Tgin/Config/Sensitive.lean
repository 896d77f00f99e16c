import Tgin.Config.Interp
import Tgin.Lib.Utf8

/-! Configured texts as they are shown, `mask_text` of `tgin-core/src/config/sensitive.rs`: references as written, the text around them
    through the redactor. A slice that cuts a character is a panic, `none`. -/

namespace Tgin.Config
open Rules
open Utf8 (Valid isBoundary slice)

/-- `str::find` of one character. -/
def findByte (c : UInt8) (text : Str) : Option Nat := text.findIdx? (· = c)

theorem findByte_eq (c : UInt8) (text : Str) : findByte c text = (Split.once c text).map fun parts => parts.1.length :=
  Split.findIdx?_eq c text

theorem findByte_lt {c : UInt8} {text : Str} {n : Nat} (h : findByte c text = some n) : n < text.length := by
  rw [findByte_eq] at h
  obtain ⟨⟨before, after⟩, cut, rfl⟩ := Option.map_eq_some_iff.mp h
  rw [(Split.once_eq_some.mp cut).1, List.length_append, List.length_cons]
  exact Nat.lt_add_of_pos_right (Nat.succ_pos _)

theorem slice_length {text part : Str} {start stop : Nat} (h : slice text start stop = some part) : start + part.length = stop := by
  unfold slice at h
  split at h
  · rename_i fits
    cases h
    simp only [Bool.and_eq_true, decide_eq_true_eq] at fits
    have stops := Utf8.le_of_isBoundary fits.2
    rw [List.length_drop, List.length_take, Nat.min_eq_left stops]
    omega
  · cases h

/-- What is shown of `text` from `literal` on, searched from `i` on. -/
def maskFrom (redact : Str → Str) (text : Str) (literal i : Nat) : Option Str :=
  match _ : slice text i text.length with
  | none => none
  | some view =>
    match _ : findByte dollar view with
    | none => do return redact (← slice text literal text.length)
    | some found =>
      let place := i + found
      match slice text place text.length with
      | none => none
      | some tail =>
        if [dollar, dollar, brace].isPrefixOf tail then maskFrom redact text literal (place + 3)
        else
          match (Split.strip [dollar, brace] tail).bind (findByte close) with
          | some closed => do
            let before ← slice text literal place
            let stop := place + 2 + closed + 1
            let reference ← slice text place stop
            return redact before ++ reference ++ (← maskFrom redact text stop stop)
          | none => maskFrom redact text literal (place + 1)
  termination_by text.length - i
  decreasing_by
    all_goals
      have inside := findByte_lt ‹findByte dollar view = some found›
      have view := slice_length ‹slice text i text.length = some view›
      omega

/-- Text as written, `${…}` references verbatim, the literal text around them redacted. -/
def maskText (redact : Str → Str) (text : Str) : Option Str := maskFrom redact text 0 0

/-! ### What is claimed -/

/-- A piece as it is written. -/
def Piece.source : Piece → Str
  | .byte b => [b]
  | .escape => [dollar, dollar, brace]
  | .reference body => dollar :: brace :: (body ++ [close])

/-- The pieces with their references as written, and what is between them through the redactor at once; `literal` is what is before. -/
def shown (redact : Str → Str) : (literal : Str) → List Piece → Str
  | literal, [] => redact literal
  | literal, .reference body :: pieces => redact literal ++ (Piece.reference body).source ++ shown redact [] pieces
  | literal, piece :: pieces => shown redact (literal ++ piece.source) pieces

/-! ### Pieces -/

/-- How the text is searched: a reference that does not end is none. -/
inductive Scans : Str → List Piece → Prop where
  | nil : Scans [] []
  | byte {b : UInt8} {text : Str} {pieces : List Piece} (plain : b ≠ dollar) (rest : Scans text pieces) :
    Scans (b :: text) (.byte b :: pieces)
  | escape {text : Str} {pieces : List Piece} (rest : Scans text pieces) :
    Scans (dollar :: dollar :: brace :: text) (.escape :: pieces)
  | reference {body text : Str} {pieces : List Piece} (one : close ∉ body) (rest : Scans text pieces) :
    Scans (dollar :: brace :: (body ++ close :: text)) (.reference body :: pieces)
  | dollar {text : Str} {pieces : List Piece} (noEscape : ¬[dollar, brace] <+: text)
    (noReference : ∀ after, text = brace :: after → close ∉ after)
    (rest : Scans text pieces) : Scans (dollar :: text) (.byte dollar :: pieces)

section
variable {redact : Str → Str} {text before after done literal rest tail : Str} {pieces : List Piece}

theorem Reads.scans (reads : Reads text pieces) : Scans text pieces := by
  induction reads with
  | nil => exact .nil
  | byte plain _ ih => exact .byte plain ih
  | escape _ ih => exact .escape ih
  | reference one _ ih => exact .reference one ih
  | dollar noEscape noReference _ ih => exact .dollar noEscape (fun after eq => absurd ⟨after, eq.symm⟩ noReference) ih

/-- Every text is searched to its end. -/
theorem scans_total (text : Str) : ∃ pieces, Scans text pieces := by
  induction len : text.length using Nat.strong_induction_on generalizing text with
  | _ n ih =>
    subst len
    cases text with
    | nil => exact ⟨[], .nil⟩
    | cons b text =>
      by_cases plain : b = dollar
      · subst plain
        by_cases escape : [dollar, brace] <+: text
        · obtain ⟨text, rfl⟩ := escape
          obtain ⟨pieces, scans⟩ := ih _ (by simp; omega) text rfl
          exact ⟨_, .escape scans⟩
        · by_cases reference : ∃ body rest, text = brace :: (body ++ close :: rest) ∧ close ∉ body
          · obtain ⟨body, rest, rfl, one⟩ := reference
            obtain ⟨pieces, scans⟩ := ih _ (by simp; omega) rest rfl
            exact ⟨_, .reference one scans⟩
          · obtain ⟨pieces, scans⟩ := ih _ (by simp) text rfl
            refine ⟨_, .dollar escape (fun after eq mem => reference ?_) scans⟩
            obtain ⟨body, rest, cut⟩ := List.append_of_mem mem
            cases found : Split.once close after with
            | none => exact absurd mem (Split.once_eq_none.mp found)
            | some parts =>
              obtain ⟨rfl, one⟩ := Split.once_eq_some.mp found
              exact ⟨_, _, eq, one⟩
      · obtain ⟨pieces, scans⟩ := ih _ (by simp) text rfl
        exact ⟨_, .byte plain scans⟩

theorem scans_append (before : Str) (plain : dollar ∉ before) (scans : Scans (before ++ rest) pieces) :
    ∃ others, pieces = before.map .byte ++ others ∧ Scans rest others := by
  induction before generalizing pieces with
  | nil => exact ⟨pieces, rfl, scans⟩
  | cons b before ih =>
    have ne : b ≠ dollar := fun h => plain (h ▸ List.mem_cons_self)
    rw [List.cons_append] at scans
    generalize same : before ++ rest = text at scans
    cases scans with
    | byte _ scans =>
      obtain ⟨others, rfl, inner⟩ := ih (fun h => plain (List.mem_cons_of_mem _ h)) (same ▸ scans)
      exact ⟨others, rfl, inner⟩
    | escape => exact absurd rfl ne
    | reference => exact absurd rfl ne
    | dollar => exact absurd rfl ne

theorem shown_bytes (redact : Str → Str) (literal bytes : Str) (pieces : List Piece) :
    shown redact literal (bytes.map .byte ++ pieces) = shown redact (literal ++ bytes) pieces := by
  induction bytes generalizing literal with
  | nil => rw [List.append_nil]; rfl
  | cons b bytes ih =>
    rw [List.map_cons, List.cons_append, shown, ih, Piece.source, List.append_assoc]
    · rfl
    · nofun

/-! ### The search -/

theorem dollar_valid : Valid [dollar] := .ascii (by decide)

section
variable {view : Str} {start i : Nat}

theorem maskFrom_none (viewed : slice text i text.length = some view) (plain : dollar ∉ view) :
    maskFrom redact text start i = (slice text start text.length).map redact := by
  have none : findByte dollar view = none := by rw [findByte_eq, Split.once_eq_none.mpr plain, Option.map_none]
  rw [maskFrom]
  split
  · rename_i absent
    cases viewed.symm.trans absent
  · rename_i same
    cases viewed.symm.trans same
    split
    · cases slice text start text.length <;> rfl
    · rename_i some
      cases none.symm.trans some

theorem maskFrom_some (viewed : slice text i text.length = some view) (cut : view = before ++ dollar :: tail) (plain : dollar ∉ before)
    (tailed : slice text (i + before.length) text.length = some (dollar :: tail)) :
    maskFrom redact text start i =
      if [dollar, dollar, brace].isPrefixOf (dollar :: tail) then maskFrom redact text start (i + before.length + 3)
      else
        match (Split.strip [dollar, brace] (dollar :: tail)).bind (findByte close) with
        | some closed => do
          let shown ← slice text start (i + before.length)
          let stop := i + before.length + 2 + closed + 1
          let reference ← slice text (i + before.length) stop
          return redact shown ++ reference ++ (← maskFrom redact text stop stop)
        | none => maskFrom redact text start (i + before.length + 1) := by
  have found : findByte dollar view = some before.length := by
    rw [findByte_eq, cut, Split.once_append plain, Option.map_some]
  rw [maskFrom]
  split
  · rename_i absent
    cases viewed.symm.trans absent
  · rename_i same
    cases viewed.symm.trans same
    split
    · rename_i none
      cases found.symm.trans none
    · rename_i same
      cases found.symm.trans same
      dsimp only
      rw [tailed]

end

/-- The rest of a text is shown piece by piece. -/
theorem maskFrom_spec (done literal : Str) {start i : Nat} (whole : text = done ++ (literal ++ rest))
    (validLiteral : Valid literal) (valid : Valid rest)
    (hs : start = done.length) (hi : i = done.length + literal.length) (scans : Scans rest pieces) :
    maskFrom redact text start i = some (shown redact literal pieces) := by
  induction len : rest.length using Nat.strong_induction_on generalizing done literal rest pieces start i with
  | _ n ih =>
    subst len
    have viewed : slice text i text.length = some rest :=
      Utf8.slice_last (done ++ literal) (by rw [whole, List.append_assoc]) valid (by rw [hi, List.length_append])
    cases cut : Split.once dollar rest with
    | none =>
      have plain := Split.once_eq_none.mp cut
      obtain ⟨others, rfl, last⟩ := scans_append rest plain (by rwa [List.append_nil])
      cases last
      rw [maskFrom_none viewed plain, Utf8.slice_last done whole (validLiteral.append valid) hs, shown_bytes]
      rfl
    | some parts =>
      obtain ⟨before, tail⟩ := parts
      obtain ⟨rfl, plain⟩ := Split.once_eq_some.mp cut
      obtain ⟨others, rfl, next⟩ := scans_append before plain scans
      have between : Valid (before ++ [dollar] ++ tail) := by rwa [List.append_assoc]
      obtain ⟨validBefore, validTail⟩ := between.around dollar_valid (List.cons_ne_nil _ _)
      have tailed : slice text (i + before.length) text.length = some (dollar :: tail) :=
        Utf8.slice_last (done ++ (literal ++ before)) (by simp [whole]) (dollar_valid.append validTail) (by simp [hi, Nat.add_assoc])
      rw [maskFrom_some viewed rfl plain tailed, shown_bytes]
      have before' := validLiteral.append validBefore
      cases next with
      | byte ne => exact absurd rfl ne
      | @escape after pieces further =>
        have escape : Valid [dollar, brace] := (Valid.ascii (by decide)).append (.ascii (by decide))
        have picked : [dollar, dollar, brace].isPrefixOf (dollar :: dollar :: brace :: after) = true := rfl
        rw [if_pos picked, shown]
        · refine ih after.length (by simp; omega) _ _ ?_ (before'.append (dollar_valid.append escape))
            (validTail.of_append escape) hs ?_ further rfl
          · simp [whole, Piece.source]
          · simp [hi, Piece.source, Nat.add_assoc]
        · nofun
      | @reference body after pieces one further =>
        have picked : ¬[dollar, dollar, brace].isPrefixOf (dollar :: brace :: (body ++ close :: after)) = true := nofun
        have closed : (Split.strip [dollar, brace] (dollar :: brace :: (body ++ close :: after))).bind (findByte close) =
            some body.length := by
          have body : Split.strip [dollar, brace] (dollar :: brace :: (body ++ close :: after)) = some (body ++ close :: after) := rfl
          rw [body, Option.bind_some, findByte_eq, Split.once_append one, Option.map_some]
        have braceValid : Valid [brace] := .ascii (by decide)
        have closeValid : Valid [close] := .ascii (by decide)
        have inner : Valid (body ++ [close] ++ after) := by simpa using validTail.of_append braceValid
        obtain ⟨validBody, validAfter⟩ := inner.around closeValid (List.cons_ne_nil _ _)
        have validSource : Valid (Piece.reference body).source := dollar_valid.append (braceValid.append (validBody.append closeValid))
        have literals : slice text start (i + before.length) = some (literal ++ before) :=
          Utf8.slice_eq done (dollar :: brace :: (body ++ close :: after)) (by rw [whole, List.append_assoc])
            before' (dollar_valid.append validTail) hs (by simp [hi, Nat.add_assoc])
        have reference : slice text (i + before.length) (i + before.length + 2 + body.length + 1) = some (Piece.reference body).source :=
          Utf8.slice_eq (done ++ (literal ++ before)) after (by simp [whole, Piece.source]) validSource validAfter
            (by simp [hi, Nat.add_assoc]) (by simp [hi, Piece.source]; omega)
        have rest : maskFrom redact text (i + before.length + 2 + body.length + 1) (i + before.length + 2 + body.length + 1) =
            some (shown redact [] pieces) := by
          refine ih after.length (by simp; omega) (done ++ (literal ++ (before ++ (Piece.reference body).source))) [] ?_ .nil validAfter
            ?_ ?_ further rfl
          · simp [whole, Piece.source]
          · simp [hi, Piece.source]
            omega
          · simp [hi, Piece.source]
            omega
        rw [if_neg picked, closed, shown]
        simp only [literals, reference, rest, Option.bind_eq_bind, Option.bind_some]
        rfl
      | @dollar _ pieces noEscape noReference further =>
        have picked : ¬[dollar, dollar, brace].isPrefixOf (dollar :: tail) = true := fun h =>
          noEscape (List.cons_prefix_cons.mp (List.isPrefixOf_iff_prefix.mp h)).2
        have closed : (Split.strip [dollar, brace] (dollar :: tail)).bind (findByte close) = none := by
          unfold Split.strip
          split
          · rename_i h
            obtain ⟨after, rfl⟩ := (List.cons_prefix_cons.mp (List.isPrefixOf_iff_prefix.mp h)).2
            have absent := Split.once_eq_none.mpr (noReference after rfl)
            exact (findByte_eq close after).trans (by rw [absent, Option.map_none])
          · rfl
        rw [if_neg picked, closed, shown]
        · refine ih tail.length (by simp; omega) _ _ ?_ (before'.append dollar_valid) validTail hs ?_ further rfl
          · simp [whole, Piece.source]
          · simp [hi, Piece.source, Nat.add_assoc]
        · nofun

/-- Every text is shown, and no character of it cut: of a text that is replaced the references as they are written, and what is
    between them through the redactor, each part of it once. -/
theorem maskText_shown (redact : Str → Str) (valid : Valid text) :
    (∃ out, maskText redact text = some out) ∧
    ∀ env baseDir out, interpolate text env baseDir = .ok out → ∃ pieces values, Reads text pieces ∧
      List.Forall₂ (Stands env baseDir) pieces values ∧ out = values.flatten ∧ maskText redact text = some (shown redact [] pieces) := by
  have spec {pieces : List Piece} (scans : Scans text pieces) : maskText redact text = some (shown redact [] pieces) :=
    maskFrom_spec [] [] rfl .nil valid rfl rfl scans
  constructor
  · obtain ⟨pieces, scans⟩ := scans_total text
    exact ⟨_, spec scans⟩
  · intro env baseDir out h
    obtain ⟨pieces, values, reads, stand, eq⟩ := reads_of_interpolate h
    exact ⟨pieces, values, reads, stand, eq, spec reads.scans⟩

end

/-! ### One reference -/

/-- `A` is `v`. -/
def oneVar : Env where
  var name := if name = [65] then some [118] else none
  readFile _ := .error []

/-- `x${env:A}`. -/
def oneReference : Str := [120, 36, 123, 101, 110, 118, 58, 65, 125]

theorem maskText_shown_reference : ∃ pieces values, Reads oneReference pieces ∧ List.Forall₂ (Stands oneVar []) pieces values ∧
    [120, 118] = values.flatten ∧ maskText List.reverse oneReference = some (shown List.reverse [] pieces) := by
  have valid : Valid oneReference := ⟨['x', '$', '{', 'e', 'n', 'v', ':', 'A', '}'], rfl⟩
  have tail : Reads (dollar :: brace :: (ENV ++ colon :: [65] ++ close :: [])) [.reference (ENV ++ colon :: [65])] :=
    .reference (by decide) .nil
  have reads : Reads oneReference [.byte 120, .reference (ENV ++ colon :: [65])] := .byte (by decide) tail
  have value : Stands oneVar [] (.reference (ENV ++ colon :: [65])) [118] := .var (List.cons_ne_nil _ _) (by decide) rfl
  have accepted : interpolate oneReference oneVar [] = .ok [120, 118] := interpolate_of_reads reads (.cons (.byte 120) (.cons value .nil))
  exact (maskText_shown List.reverse valid).2 oneVar [] [120, 118] accepted

end Tgin.Config
