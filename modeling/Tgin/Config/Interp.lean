import Mathlib.Data.List.Forall2
import Mathlib.Data.List.Infix
import Tgin.Lib.Split
import Tgin.LocalFiles.HttpReader
import Tgin.Rules

/-! References in configured texts, `tgin-runtime/src/config/interp.rs`: each `${…}` is replaced by what it refers to, in one pass.

    The environment is a parameter, its files by their paths. -/

namespace Tgin.Config
open Rules
open LocalFiles (ascii)

/-- `$`. -/
abbrev dollar : UInt8 := 36

/-- `{`. -/
abbrev brace : UInt8 := 123

/-- `}`. -/
abbrev close : UInt8 := 125

abbrev colon : UInt8 := 58

structure Env where
  var : Str → Option Str
  /-- An error by its text. -/
  readFile : (path : Str) → Except Str Str

inductive InterpError where
  | missingVar (name : Str)
  | unreadableFile (path error : Str)
  | badSyntax (what : Str)
  | unknownScheme (scheme : Str)
  deriving DecidableEq, Repr

/-- `env` and `file`. -/
def ENV : Str := [101, 110, 118]
def FILE : Str := [102, 105, 108, 101]

/-- `Path::join`, on Unix. -/
def join (base path : Str) : Str :=
  if path.head? = some slash then path
  else if base = [] ∨ base.getLast? = some slash then base ++ path
  else base ++ slash :: path

/-- `content` without one `\n` or `\r\n` at its end. -/
def truncated (content : Str) : Str :=
  if [13, 10].isSuffixOf content then content.take (content.length - 2)
  else if [10].isSuffixOf content then content.take (content.length - 1)
  else content

/-- The start of `text`, for error messages: up to 40 characters of its first line. -/
def excerpt (text : Str) : Str :=
  let starts := (List.range text.length).filter fun n => text[n]?.all fun b => !(128 ≤ b && b < 192)
  (text.take (starts[40]?.getD text.length)).takeWhile (· ≠ 10)

/-- The value of the reference `${body}`. -/
def resolve (body : Str) (env : Env) (baseDir : Str) : Except InterpError Str :=
  let shown := ascii "`$\x7b" ++ body ++ ascii "\x7d`"
  if [dollar, brace] <:+: body then .error (.badSyntax (shown ++ ascii " is nested; references do not nest"))
  else
    match (Split.once colon body).filter (·.1 ≠ []) with
    | none => .error (.badSyntax (shown ++ ascii " has no scheme; use `$\x7benv:NAME\x7d` or `$\x7bfile:PATH\x7d`"))
    | some (scheme, arg) =>
      if ¬(scheme = ENV ∨ scheme = FILE) then .error (.unknownScheme scheme)
      else if arg = [] then .error (.badSyntax (shown ++ ascii " names no " ++ if scheme = ENV then ascii "variable" else ascii "file"))
      else if scheme = ENV then
        match env.var arg with
        | some value => .ok value
        | none => .error (.missingVar arg)
      else
        let path := join baseDir arg
        match env.readFile path with
        | .ok content => .ok (truncated content)
        | .error error => .error (.unreadableFile path error)

/-- What follows the first element is shorter. -/
theorem once_length {c : UInt8} {text before after : Str} (h : Split.once c text = some (before, after)) :
    after.length < text.length := by
  rw [(Split.once_eq_some.mp h).1, List.length_append, List.length_cons]
  omega

/-- Replaces every `${env:NAME}` with the variable's value and every `${file:PATH}` with the file's content; `$${` produces a literal
    `${`. -/
def interpolate (template : Str) (env : Env) (baseDir : Str) : Except InterpError Str :=
  match _ : Split.once dollar template with
  | none => .ok template
  | some (before, tail) =>
    match tail with
    | 36 :: 123 :: after => do return before ++ [dollar, brace] ++ (← interpolate after env baseDir)
    | 123 :: after =>
      match _ : Split.once close after with
      | none => .error (.badSyntax (ascii "`" ++ excerpt (dollar :: tail) ++ ascii "` has no closing `\x7d`"))
      | some (body, rest) => do
        let value ← resolve body env baseDir
        return before ++ value ++ (← interpolate rest env baseDir)
    | tail => do return before ++ [dollar] ++ (← interpolate tail env baseDir)
  termination_by template.length
  decreasing_by
    · have first := once_length ‹Split.once dollar template = some _›
      simp only [List.length_cons] at first
      omega
    · have first := once_length ‹Split.once dollar template = some _›
      have second := once_length ‹Split.once close after = some _›
      simp only [List.length_cons] at first
      omega
    · exact once_length ‹Split.once dollar template = some _›

/-! ### What is claimed -/

/-- What a text is made of. -/
inductive Piece where
  | byte (b : UInt8)
  /-- `$${`. -/
  | escape
  /-- `${…}`. -/
  | reference (body : Str)
  deriving DecidableEq, Repr

/-- The grammar of texts. -/
inductive Reads : Str → List Piece → Prop where
  | nil : Reads [] []
  | byte {b : UInt8} {text : Str} {pieces : List Piece} (plain : b ≠ dollar) (rest : Reads text pieces) :
    Reads (b :: text) (.byte b :: pieces)
  | escape {text : Str} {pieces : List Piece} (rest : Reads text pieces) :
    Reads (dollar :: dollar :: brace :: text) (.escape :: pieces)
  | reference {body text : Str} {pieces : List Piece} (one : close ∉ body) (rest : Reads text pieces) :
    Reads (dollar :: brace :: (body ++ close :: text)) (.reference body :: pieces)
  /-- A `$` that begins neither of them. -/
  | dollar {text : Str} {pieces : List Piece} (noEscape : ¬[dollar, brace] <+: text) (noReference : ¬[brace] <+: text)
    (rest : Reads text pieces) : Reads (dollar :: text) (.byte dollar :: pieces)

/-- What a piece stands for. -/
inductive Stands (env : Env) (baseDir : Str) : Piece → Str → Prop where
  | byte (b : UInt8) : Stands env baseDir (.byte b) [b]
  | escape : Stands env baseDir .escape [dollar, brace]
  | var {name value : Str} (named : name ≠ []) (flat : ¬[dollar, brace] <:+: ENV ++ colon :: name) (set : env.var name = some value) :
    Stands env baseDir (.reference (ENV ++ colon :: name)) value
  | file {path content : Str} (named : path ≠ []) (flat : ¬[dollar, brace] <:+: FILE ++ colon :: path)
    (read : env.readFile (join baseDir path) = .ok content) : Stands env baseDir (.reference (FILE ++ colon :: path)) (truncated content)

/-- `s.replace("${", "$${")`. -/
def escaped : Str → Str
  | 36 :: 123 :: rest => dollar :: dollar :: brace :: escaped rest
  | b :: rest => b :: escaped rest
  | [] => []

/-! ### References -/

section
variable {env : Env} {baseDir text body before after out : Str} {pieces : List Piece}

theorem resolve_eq_ok {value : Str} : resolve body env baseDir = .ok value ↔ Stands env baseDir (.reference body) value := by
  constructor
  · intro h
    unfold resolve at h
    dsimp only at h
    split at h
    · cases h
    rename_i flat
    split at h
    · cases h
    rename_i scheme arg cut
    obtain ⟨cut, -⟩ := Option.filter_eq_some_iff.mp cut
    obtain ⟨rfl, -⟩ := Split.once_eq_some.mp cut
    split at h
    · cases h
    rename_i known
    split at h
    · cases h
    rename_i named
    split at h
    · rename_i isEnv
      subst isEnv
      split at h
      · rename_i set
        cases h
        exact .var named flat set
      · cases h
    · rename_i notEnv
      obtain rfl := (not_not.mp known).resolve_left notEnv
      split at h
      · rename_i read
        cases h
        exact .file named flat read
      · cases h
  · intro h
    cases h with
    | @var name value named flat set =>
      have cut : Split.once colon (ENV ++ colon :: name) = some (ENV, name) := Split.once_append (by decide)
      have kept : (some (ENV, name)).filter (·.1 ≠ []) = some (ENV, name) := rfl
      unfold resolve
      dsimp only
      rw [if_neg flat, cut, kept]
      dsimp only
      rw [if_neg (not_not.mpr (.inl rfl)), if_neg named, if_pos rfl, set]
    | @file path content named flat read =>
      have cut : Split.once colon (FILE ++ colon :: path) = some (FILE, path) := Split.once_append (by decide)
      have kept : (some (FILE, path)).filter (·.1 ≠ []) = some (FILE, path) := rfl
      unfold resolve
      dsimp only
      rw [if_neg flat, cut, kept]
      dsimp only
      rw [if_neg (not_not.mpr (.inr rfl)), if_neg named, if_neg (by decide), read]

/-! ### The scan -/

/-- What is made of a `$` and what follows it. -/
def atDollar (env : Env) (baseDir : Str) : Str → Except InterpError Str
  | 36 :: 123 :: after => ([dollar, brace] ++ ·) <$> interpolate after env baseDir
  | 123 :: after =>
    match Split.once close after with
    | none => .error (.badSyntax (ascii "`" ++ excerpt (dollar :: brace :: after) ++ ascii "` has no closing `\x7d`"))
    | some (body, rest) => resolve body env baseDir >>= fun value => (value ++ ·) <$> interpolate rest env baseDir
  | tail => (dollar :: ·) <$> interpolate tail env baseDir

theorem interpolate_plain (plain : dollar ∉ text) : interpolate text env baseDir = .ok text := by
  have none := Split.once_eq_none.mpr plain
  rw [interpolate]
  split
  · rfl
  · rename_i some
    cases none.symm.trans some

theorem interpolate_cut {tail : Str} (plain : dollar ∉ before) :
    interpolate (before ++ dollar :: tail) env baseDir = (before ++ ·) <$> atDollar env baseDir tail := by
  have cut : Split.once dollar (before ++ dollar :: tail) = some (before, tail) := Split.once_append plain
  rw [interpolate]
  generalize before ++ dollar :: tail = template at cut
  split
  · rename_i none
    cases cut.symm.trans none
  · rename_i same
    cases cut.symm.trans same
    split
    · rw [atDollar]
      cases interpolate _ env baseDir <;> simp [Functor.map, Except.map, bind, Except.bind, pure, Except.pure]
    · rw [atDollar]
      split
      · rename_i none
        rw [none]
        rfl
      · rename_i inner
        rw [inner]
        dsimp only
        cases resolve _ env baseDir <;> cases interpolate _ env baseDir <;>
          simp [Functor.map, Except.map, bind, Except.bind, pure, Except.pure]
    · rename_i noEscape noReference
      rw [atDollar]
      · cases interpolate _ env baseDir <;> simp [Functor.map, Except.map, bind, Except.bind, pure, Except.pure]
      · rintro after rfl
        exact noEscape after _ rfl HEq.rfl
      · rintro after rfl
        exact noReference after _ rfl HEq.rfl

theorem interpolate_dollar (tail : Str) : interpolate (dollar :: tail) env baseDir = atDollar env baseDir tail :=
  (interpolate_cut List.not_mem_nil).trans (id_map _)

theorem interpolate_byte {b : UInt8} (plain : b ≠ dollar) :
    interpolate (b :: text) env baseDir = (b :: ·) <$> interpolate text env baseDir := by
  cases found : Split.once dollar text with
  | none =>
    have absent := Split.once_eq_none.mp found
    rw [interpolate_plain absent, interpolate_plain (List.not_mem_cons_of_ne_of_not_mem plain.symm absent)]
    rfl
  | some parts =>
    obtain ⟨rfl, absent⟩ := Split.once_eq_some.mp found
    rw [interpolate_cut absent, ← List.cons_append, interpolate_cut (List.not_mem_cons_of_ne_of_not_mem plain.symm absent), ← comp_map]
    rfl

theorem atDollar_reference (one : close ∉ body) : atDollar env baseDir (brace :: (body ++ close :: text)) =
    resolve body env baseDir >>= fun value => (value ++ ·) <$> interpolate text env baseDir := by
  have cut : Split.once close (body ++ close :: text) = some (body, text) := Split.once_append one
  rw [atDollar, cut]

theorem atDollar_plain (noEscape : ¬[dollar, brace] <+: text) (noReference : ¬[brace] <+: text) :
    atDollar env baseDir text = (dollar :: ·) <$> interpolate text env baseDir := by
  rw [atDollar]
  · rintro after rfl
    exact noEscape ⟨after, rfl⟩
  · rintro after rfl
    exact noReference ⟨after, rfl⟩

theorem map_eq_ok {f : Str → Str} {x : Except InterpError Str} : f <$> x = .ok out ↔ ∃ y, x = .ok y ∧ f y = out := by
  cases x with
  | error e => exact ⟨nofun, nofun⟩
  | ok y =>
    refine ⟨fun h => ⟨y, rfl, Except.ok.inj h⟩, ?_⟩
    rintro ⟨_, ⟨⟩, rfl⟩
    rfl

theorem bind_eq_ok {f : Str → Except InterpError Str} {x : Except InterpError Str} :
    x >>= f = .ok out ↔ ∃ y, x = .ok y ∧ f y = .ok out := by
  cases x with
  | error e => exact ⟨nofun, nofun⟩
  | ok y =>
    refine ⟨fun h => ⟨y, rfl, h⟩, ?_⟩
    rintro ⟨_, ⟨⟩, h⟩
    exact h

/-- What the pieces of a text stand for is what it is replaced by. -/
theorem interpolate_of_reads {values : List Str} (reads : Reads text pieces) (stand : List.Forall₂ (Stands env baseDir) pieces values) :
    interpolate text env baseDir = .ok values.flatten := by
  induction reads generalizing values with
  | nil =>
    cases stand
    exact interpolate_plain List.not_mem_nil
  | byte plain _ ih =>
    cases stand with
    | cons here stand =>
      cases here
      rw [interpolate_byte plain, ih stand]
      rfl
  | escape _ ih =>
    cases stand with
    | cons here stand =>
      cases here
      rw [interpolate_dollar, atDollar, ih stand]
      rfl
  | reference one _ ih =>
    cases stand with
    | cons here stand =>
      rw [interpolate_dollar, atDollar_reference one, resolve_eq_ok.mpr here, ih stand]
      rfl
  | dollar noEscape noReference _ ih =>
    cases stand with
    | cons here stand =>
      cases here
      rw [interpolate_dollar, atDollar_plain noEscape noReference, ih stand]
      rfl

/-- A text that is replaced has pieces that stand for something. -/
theorem reads_of_interpolate (h : interpolate text env baseDir = .ok out) :
    ∃ pieces values, Reads text pieces ∧ List.Forall₂ (Stands env baseDir) pieces values ∧ out = values.flatten := by
  induction len : text.length using Nat.strong_induction_on generalizing text out with
  | _ n ih =>
    subst len
    cases text with
    | nil =>
      rw [interpolate_plain List.not_mem_nil] at h
      cases h
      exact ⟨[], [], .nil, .nil, rfl⟩
    | cons b text =>
      by_cases plain : b = dollar
      · subst plain
        rw [interpolate_dollar] at h
        unfold atDollar at h
        split at h
        · obtain ⟨rest, inner, rfl⟩ := map_eq_ok.mp h
          obtain ⟨pieces, values, reads, stand, rfl⟩ := ih _ (by simp; omega) inner rfl
          exact ⟨_, _, .escape reads, .cons .escape stand, rfl⟩
        · split at h
          · cases h
          · rename_i cut
            obtain ⟨value, resolved, h⟩ := bind_eq_ok.mp h
            obtain ⟨rest, inner, rfl⟩ := map_eq_ok.mp h
            obtain ⟨rfl, one⟩ := Split.once_eq_some.mp cut
            obtain ⟨pieces, values, reads, stand, rfl⟩ := ih _ (by simp; omega) inner rfl
            exact ⟨_, _, .reference one reads, .cons (resolve_eq_ok.mp resolved) stand, rfl⟩
        · rename_i noEscape noReference
          obtain ⟨rest, inner, rfl⟩ := map_eq_ok.mp h
          obtain ⟨pieces, values, reads, stand, rfl⟩ := ih _ (by simp) inner rfl
          refine ⟨_, _, .dollar ?_ ?_ reads, .cons (.byte dollar) stand, rfl⟩
          · rintro ⟨after, rfl⟩
            exact noEscape after rfl
          · rintro ⟨after, rfl⟩
            exact noReference after rfl
      · rw [interpolate_byte plain] at h
        obtain ⟨rest, inner, rfl⟩ := map_eq_ok.mp h
        obtain ⟨pieces, values, reads, stand, rfl⟩ := ih _ (by simp) inner rfl
        exact ⟨_, _, .byte plain reads, .cons (.byte b) stand, rfl⟩

theorem escaped_brace (h : [brace] <+: escaped text) : [brace] <+: text := by
  cases text using escaped.fun_cases with
  | case1 rest => cases (List.cons_prefix_cons.mp h).1
  | case2 b rest noEscape =>
    rw [escaped.eq_2 _ _ noEscape] at h
    exact List.cons_prefix_cons.mpr ⟨(List.cons_prefix_cons.mp h).1, List.nil_prefix⟩
  | case3 => exact h

theorem escaped_flat (text : Str) : ¬[dollar, brace] <+: escaped text := by
  intro h
  cases text using escaped.fun_cases with
  | case1 rest => cases (List.cons_prefix_cons.mp (List.cons_prefix_cons.mp h).2).1
  | case2 b rest noEscape =>
    rw [escaped.eq_2 _ _ noEscape] at h
    obtain ⟨first, h⟩ := List.cons_prefix_cons.mp h
    obtain ⟨after, rfl⟩ := escaped_brace h
    exact noEscape after first.symm rfl
  | case3 => exact List.cons_ne_nil _ _ (List.prefix_nil.mp h)

/-- An escaped text stands for the text. -/
theorem reads_escaped (s : Str) : ∃ pieces values, Reads (escaped s) pieces ∧ List.Forall₂ (Stands env baseDir) pieces values ∧
    values.flatten = s := by
  induction s using escaped.induct with
  | case1 rest ih =>
    obtain ⟨pieces, values, reads, stand, eq⟩ := ih
    exact ⟨_, _, .escape reads, .cons .escape stand, by rw [List.flatten_cons, eq]; rfl⟩
  | case2 b rest noEscape ih =>
    obtain ⟨pieces, values, reads, stand, eq⟩ := ih
    rw [escaped.eq_2 _ _ noEscape]
    refine ⟨.byte b :: pieces, [b] :: values, ?_, .cons (.byte b) stand, by rw [List.flatten_cons, eq]; rfl⟩
    by_cases plain : b = dollar
    · subst plain
      refine .dollar (escaped_flat rest) (fun h => ?_) reads
      obtain ⟨after, rfl⟩ := escaped_brace h
      exact noEscape after rfl rfl
    · exact .byte plain reads
  | case3 => exact ⟨[], [], .nil, .nil, rfl⟩

/-- Escaping and replacing undo each other, and a text is replaced by what its pieces stand for, each read once. -/
theorem interpolate_single (env : Env) (baseDir : Str) :
    (∀ s, interpolate (escaped s) env baseDir = .ok s) ∧
    ∀ s out, interpolate s env baseDir = .ok out ↔
      ∃ pieces values, Reads s pieces ∧ List.Forall₂ (Stands env baseDir) pieces values ∧ out = values.flatten := by
  constructor
  · intro s
    obtain ⟨pieces, values, reads, stand, eq⟩ := reads_escaped s
    rw [interpolate_of_reads reads stand, eq]
  · intro s out
    refine ⟨reads_of_interpolate, ?_⟩
    rintro ⟨pieces, values, reads, stand, rfl⟩
    exact interpolate_of_reads reads stand

end

end Tgin.Config
