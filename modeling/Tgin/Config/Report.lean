import Tgin.Config.Raw
import Tgin.Gateway.Paths
import Tgin.Lib.Checked

/-! Errors and warnings about a configuration: `ConfigError` of `tgin-runtime/src/config/mod.rs`, `Diagnostics` and the checks of one
    value in `config/validate.rs`. -/

namespace Tgin.Config
open Checked Raw Rules

/-- The bytes of a literal text. -/
def utf8 (text : String) : Str := Utf8.encode text.toList

/-- Where in a document an error was found. -/
structure Located where
  /-- The YAML path, such as `bots[1].token`. -/
  path : Str
  line : Nat
  column : Nat
  deriving DecidableEq, Repr

inductive Severity where
  /-- The configuration is rejected. -/
  | error
  | warning
  deriving DecidableEq, Repr

structure ConfigError where
  severity : Severity
  place : Option Located
  message : Str
  hint : Option Str
  deriving DecidableEq, Repr

/-- Errors and warnings found so far. -/
abbrev Diagnostics := Reports ConfigError

/-- `u32::MAX`. -/
abbrev U32_MAX : Nat := 2 ^ 32 - 1

def located (path : Str) (location : Location) : Located :=
  { path, line := min location.line U32_MAX, column := min location.column U32_MAX }

/-- `primary` if it was written in the document, else `fallback`. -/
def known (primary fallback : Location) : Location := if primary.line = 0 then fallback else primary

namespace Diagnostics

def error (path : Str) (location : Location) (message : Str) (hint : Option Str := none) : Diagnostics :=
  Reports.error { severity := .error, place := some (located path location), message, hint }

def warning (path : Str) (location : Location) (message : Str) (hint : Option Str := none) : Diagnostics :=
  Reports.warning { severity := .warning, place := some (located path location), message, hint }

@[simp] theorem not_clean_error {path message : Str} {location : Location} {hint : Option Str} :
    ¬(error path location message hint).Clean := Reports.clean_error

@[simp] theorem clean_warning {path message : Str} {location : Location} {hint : Option Str} :
    (warning path location message hint).Clean := Reports.clean_warning

end Diagnostics
open Diagnostics

/-- A field of the value at `path`. -/
def field (path : Str) (name : String) : Str := path ++ utf8 ("." ++ name)

/-- An entry of the list at `path`. -/
def entry (path : Str) (i : Nat) : Str := path ++ utf8 "[" ++ number i ++ utf8 "]"

/-- `text` between backticks. -/
def quoted (text : Str) : Str := utf8 "`" ++ text ++ utf8 "`"

/-! ### Checks of one value -/

section
variable {α : Type}

/-- Rejects humantime's month and year units. -/
def duration (path : Str) (value : At HumanDuration) : Diagnostics :=
  match value.value.calendarUnit with
  | some unit => error path value.location
      (quoted value.value.asStr ++ utf8 " uses " ++ quoted (Utf8.encode unit) ++ utf8 ", a month or year unit")
      (some (utf8 "write days (`d`) or weeks (`w`) instead"))
  | none => .none

/-- Rejects a zero duration; `hint` says what 0 would do. -/
def positive (path : Str) (value : At HumanDuration) (hint : String) : Diagnostics :=
  .when (value.value.value = 0)
    (error path value.location (quoted value.value.asStr ++ utf8 " must be longer than 0") (some (utf8 hint)))

/-- Rejects a duration longer than `limit`; a month or year unit is reported already. -/
def atMost (path : Str) (value : At HumanDuration) (limit : HumanDuration) (hint : String) : Diagnostics :=
  .when (value.value.calendarUnit = none ∧ limit.value < value.value.value)
    (error path value.location (quoted value.value.asStr ++ utf8 " is longer than the maximum of " ++ limit.asStr) (some (utf8 hint)))

/-- Rejects a duration shorter than `minimum`. -/
def atLeast (path : Str) (value : At HumanDuration) (location : Location) (minimum : HumanDuration) (hint : Option String) :
    Diagnostics :=
  .when (value.value.value < minimum.value)
    (error path location (quoted value.value.asStr ++ utf8 " is shorter than the minimum of " ++ minimum.asStr) (hint.map utf8))

def atLeastOne [DecidableEq α] [Inhabited α] (path : Str) (value : At α) : Diagnostics :=
  .when (value.value = default) (error path value.location (utf8 "must be at least 1"))

/-- A queue's `capacity_bytes`: at least 1 MiB, so every update fits. -/
def capacityBytes (path : Str) (value : At Nat) : Diagnostics :=
  .when (value.value < 1 <<< 20)
    (error path value.location (utf8 "must be at least 1MiB") (some (utf8 "updates can be up to 1 MiB, and a larger update is dropped")))

/-- 1 to `max`, such as Telegram's 1 to 100. -/
def inRange (path : Str) (value : At UInt32) (max : Nat) (fallback : Location) : Diagnostics :=
  .when (¬(1 ≤ value.value.toNat ∧ value.value.toNat ≤ max))
    (error path (known value.location fallback)
      (number value.value.toNat ++ utf8 " is out of range; use 1 to " ++ number max))

/-- A name is 1 to 63 lowercase letters, digits and `-`, starting with a letter or digit. -/
def checkName (path : Str) (name : Str) (location : Location) : Diagnostics :=
  .when (¬Gateway.GatewayPath.validName name)
    (error path location (utf8 "invalid name " ++ quoted name)
      (some (utf8 "use 1 to 63 lowercase letters, digits and `-`, starting with a letter or digit")))

/-! What they accept. -/

variable {path : Str} {value : At HumanDuration} {location : Location}

/-- No month or year unit in the text. -/
def Raw.HumanDuration.Plain (duration : HumanDuration) : Prop := duration.calendarUnit = none

@[simp] theorem clean_duration : (duration path value).Clean ↔ value.value.Plain := by
  unfold duration HumanDuration.Plain
  cases value.value.calendarUnit <;> simp

@[simp] theorem clean_positive {hint : String} : (positive path value hint).Clean ↔ 0 < value.value.value := by
  simp [positive, Nat.pos_iff_ne_zero]

@[simp] theorem clean_atMost {limit : HumanDuration} {hint : String} :
    (atMost path value limit hint).Clean ↔ (value.value.Plain → value.value.value ≤ limit.value) := by
  simp [atMost, HumanDuration.Plain]

@[simp] theorem clean_atLeast {minimum : HumanDuration} {hint : Option String} :
    (atLeast path value location minimum hint).Clean ↔ minimum.value ≤ value.value.value := by
  simp [atLeast]

@[simp] theorem clean_atLeastOne [DecidableEq α] [Inhabited α] {value : At α} :
    (atLeastOne path value).Clean ↔ value.value ≠ default := by
  simp [atLeastOne]

@[simp] theorem clean_capacityBytes {value : At Nat} : (capacityBytes path value).Clean ↔ 2 ^ 20 ≤ value.value := by
  simp [capacityBytes]

@[simp] theorem clean_inRange {value : At UInt32} {max : Nat} :
    (inRange path value max location).Clean ↔ 1 ≤ value.value.toNat ∧ value.value.toNat ≤ max := by
  simp [inRange]

@[simp] theorem clean_checkName {name : Str} :
    (checkName path name location).Clean ↔ Gateway.GatewayPath.validName name = true := by
  simp [checkName]

end

end Tgin.Config
