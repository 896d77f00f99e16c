import Tgin.ClientIp
import Tgin.Lib.JsonText
import Tgin.Lib.Split
import Tgin.Rules

/-! The part of a file that a `Range` header asks for, `range` of `gateway/files.rs`. A header's text is ASCII, and a number that it
    writes may have any length. -/

namespace Tgin.Gateway
open Rules
open ClientIp (isWhitespace comma)
open JsonText (isDigit Digits)

/-- What a `Range` header asks of a file of a length. -/
inductive Range where
  /-- No usable range: several, another unit, or one that does not parse. -/
  | whole
  /-- The bytes from the first to the second, within the file. -/
  | part (start «end» : Nat)
  /-- A range wholly past the end, or an empty suffix. -/
  | unsatisfiable
  deriving DecidableEq, Repr

namespace Range

abbrev equals : UInt8 := 61

abbrev dash : UInt8 := 45

/-- `bytes`. -/
def BYTES : Str := [98, 121, 116, 101, 115]

/-- What digits stand for. -/
def decimal (text : Str) : Nat := text.foldl (fun n b => n * 10 + (b.toNat - 48)) 0

/-- A non-empty run of ASCII digits as a number, if it is one of 64 bits. -/
def digits (text : Str) : Option Nat :=
  if text = [] ∨ !text.all isDigit then none
  else if decimal text < wordSize then some (decimal text)
  else none

/-- Subtraction that panics below zero. -/
def checkedSub (a b : Nat) : Option Nat := if b ≤ a then some (a - b) else none

/-- The positions of a range of bytes, either side of its `-`. -/
def positions (value : Str) : Option (Str × Str) := do
  let (unit, spec) ← Split.once equals value
  if !Str.eqIgnoreAsciiCase (Split.trim isWhitespace unit) BYTES || spec.contains comma then none
  else
    let (first, last) ← Split.once dash spec
    some (Split.trim isWhitespace first, Split.trim isWhitespace last)

/-- `bytes=a-b`, `bytes=a-` or `bytes=-n`; `none` is a panic. -/
def range (value : Str) (len : Nat) : Option Range :=
  match positions value with
  | none => some .whole
  | some (first, last) =>
    if first = [] then
      match digits last with
      | none => some .whole
      | some 0 => some .unsatisfiable
      | some suffix => if len = 0 then some .unsatisfiable else (checkedSub len 1).map (.part (len - suffix))
    else
      match digits first with
      | none => some .whole
      | some start =>
        match if last = [] then some wordMax else (digits last).filter (start ≤ ·) with
        | none => some .whole
        | some «end» =>
          if len ≤ start then some .unsatisfiable else (checkedSub len 1).map fun last => .part start (min «end» last)

/-! ### The rules -/

/-- A range that a client asks for. -/
inductive Asked where
  | fromTo (first last : Nat)
  | onward (first : Nat)
  | suffix (length : Nat)

/-- The header asks for bytes between two positions, which whitespace may surround as it may the unit. -/
def Writes (value first last : Str) : Prop :=
  ∃ unit name left right, value = unit ++ equals :: (left ++ dash :: right) ∧
    Split.Padded isWhitespace name unit ∧ Str.eqIgnoreAsciiCase name BYTES ∧
    Split.Padded isWhitespace first left ∧ Split.Padded isWhitespace last right

/-- The header asks for one range, of which the last position is not before the first. -/
inductive Asks (value : Str) : Asked → Prop where
  | fromTo {first last : Str} (writes : Writes value first last) (numeral : Digits first) (numeral' : Digits last)
    (valid : decimal first ≤ decimal last) : Asks value (.fromTo (decimal first) (decimal last))
  | onward {first : Str} (writes : Writes value first []) (numeral : Digits first) : Asks value (.onward (decimal first))
  | suffix {last : Str} (writes : Writes value [] last) (numeral : Digits last) : Asks value (.suffix (decimal last))

/-- What it selects of a file of that length. A last position past the end is cut, and a suffix longer than the file is the file. -/
def Asked.select (len : Nat) : Asked → Range
  | fromTo first last => if first < len then .part first (min last (len - 1)) else .unsatisfiable
  | onward first => if first < len then .part first (len - 1) else .unsatisfiable
  | suffix length => if 0 < length ∧ 0 < len then .part (len - length) (len - 1) else .unsatisfiable

/-- What a header selects: anything that is not one valid range is ignored. -/
inductive Selects (value : Str) (len : Nat) : Range → Prop where
  | asked {asked : Asked} (asks : Asks value asked) : Selects value len (asked.select len)
  | ignored (none : ∀ asked, ¬Asks value asked) : Selects value len .whole

/-- The greatest number of a range. -/
def Asked.greatest : Asked → Nat
  | fromTo _ last => last
  | onward first => first
  | suffix length => length

/-- The range is the one of the rules, and lies in the file. -/
structure Right (value : Str) (len : Nat) (answer : Option Range) : Prop where
  total : ∃ r, answer = some r
  rules : ∀ r, answer = some r → Selects value len r
  within : ∀ start «end», answer = some (.part start «end») → start ≤ «end» ∧ «end» < len

/-! ### Positions -/

theorem not_isWhitespace_of_isDigit {b : UInt8} (h : isDigit b) : isWhitespace b = false := by
  rw [isDigit, Bool.and_eq_true, decide_eq_true_eq, decide_eq_true_eq, UInt8.le_iff_toNat_le, UInt8.le_iff_toNat_le] at h
  have not32 : b ≠ 32 := by
    rintro rfl
    exact absurd h.1 (by decide)
  have above : ¬b ≤ 13 := by
    rw [UInt8.le_iff_toNat_le]
    exact Nat.not_le_of_lt (Nat.lt_of_lt_of_le (by decide) h.1)
  rw [isWhitespace, decide_eq_false not32, decide_eq_false above, Bool.and_false, Bool.or_false]

/-- Digits, or nothing. -/
def Plain (text : Str) : Prop := ∀ b ∈ text, isDigit b

theorem Plain.nil : Plain [] := nofun

section
variable {value unit name text first last : Str} {b : UInt8}

theorem Plain.solid (h : Plain text) : ∀ b ∈ text, isWhitespace b = false := fun b hb => not_isWhitespace_of_isDigit (h b hb)

/-- Between whitespace, digits have neither of the other signs. -/
theorem Plain.absent {l : Str} (h : Plain text) (padded : Split.Padded isWhitespace text l) (notDigit : isDigit b = false)
    (notSpace : isWhitespace b = false) : b ∉ l := by
  obtain ⟨left, right, rfl, hl, hr⟩ := padded
  intro mem
  rcases List.mem_append.mp mem with mem | mem
  · rcases List.mem_append.mp mem with mem | mem
    · exact Bool.false_ne_true (notSpace.symm.trans (hl b mem))
    · exact Bool.false_ne_true (notDigit.symm.trans (h b mem))
  · exact Bool.false_ne_true (notSpace.symm.trans (hr b mem))

theorem mem_BYTES_of_mem (named : Str.eqIgnoreAsciiCase name BYTES) (hb : b ∈ name) (small : ¬(65 ≤ b ∧ b ≤ 90)) : b ∈ BYTES := by
  have same : name.toAsciiLowercase = BYTES.toAsciiLowercase := of_decide_eq_true named
  have mem : (if 65 ≤ b ∧ b ≤ 90 then b + 32 else b) ∈ name.toAsciiLowercase := List.mem_map_of_mem hb
  rw [if_neg small, same] at mem
  exact mem

/-- The unit's name has no whitespace and no `=`. -/
theorem unit_solid (named : Str.eqIgnoreAsciiCase name BYTES) : ∀ b ∈ name, isWhitespace b = false ∧ b ≠ equals := by
  intro b hb
  constructor
  · by_contra space
    rw [Bool.not_eq_false, isWhitespace, Bool.or_eq_true, Bool.and_eq_true] at space
    have low : b ≤ 32 := by
      rcases space with space | ⟨-, space⟩
      · rw [of_decide_eq_true space]
        exact UInt8.le_refl _
      · exact UInt8.le_trans (of_decide_eq_true space) (by decide)
    have mem := mem_BYTES_of_mem named hb fun h => absurd (UInt8.le_trans h.1 low) (by decide)
    have large : BYTES.all fun b => 32 < b.toNat := by decide
    exact Nat.not_lt_of_le (UInt8.le_iff_toNat_le.mp low) (List.all_iff_forall_prop.mp large b mem)
  · rintro rfl
    exact absurd (mem_BYTES_of_mem named hb (by decide)) (by decide)

theorem positions_of_writes (writes : Writes value first last) (hf : Plain first) (hl : Plain last) :
    positions value = some (first, last) := by
  obtain ⟨unit, name, left, right, rfl, padded, named, paddedFirst, paddedLast⟩ := writes
  have solid := unit_solid named
  have noEquals : equals ∉ unit := by
    obtain ⟨l, r, rfl, spaceL, spaceR⟩ := padded
    intro mem
    rcases List.mem_append.mp mem with mem | mem
    · rcases List.mem_append.mp mem with mem | mem
      · cases spaceL _ mem
      · exact (solid _ mem).2 rfl
    · cases spaceR _ mem
  have noDash : dash ∉ left := hf.absent paddedFirst rfl rfl
  have noComma : (left ++ dash :: right).contains comma = false := by
    rw [List.contains_eq_mem, decide_eq_false_iff_not, List.mem_append, List.mem_cons, not_or, not_or]
    exact ⟨hf.absent paddedFirst rfl rfl, by decide, hl.absent paddedLast rfl rfl⟩
  rw [positions, Split.once_append noEquals]
  simp only [Option.bind_eq_bind, Option.bind_some]
  rw [padded.trim_eq fun b hb => (solid b hb).1, named, noComma, Split.once_append noDash]
  exact congrArg some (Prod.ext (paddedFirst.trim_eq hf.solid) (paddedLast.trim_eq hl.solid))

theorem writes_of_positions (h : positions value = some (first, last)) : Writes value first last := by
  obtain ⟨⟨unit, spec⟩, cut, rest⟩ := Option.bind_eq_some_iff.mp h
  obtain ⟨rfl, -⟩ := Split.once_eq_some.mp cut
  dsimp only at rest
  split at rest
  · cases rest
  · rename_i usable
    rw [Bool.or_eq_true, not_or, Bool.not_eq_true', Bool.not_eq_false] at usable
    obtain ⟨⟨left, right⟩, cut, trimmed⟩ := Option.bind_eq_some_iff.mp rest
    obtain ⟨rfl, -⟩ := Split.once_eq_some.mp cut
    cases trimmed
    exact ⟨unit, _, left, right, rfl, Split.padded_trim .., usable.1, Split.padded_trim .., Split.padded_trim ..⟩

end

/-! ### Numbers -/

section
variable {value text first last : Str} {len n : Nat}

theorem digits_eq_some (h : digits text = some n) : Digits text ∧ decimal text = n ∧ n < wordSize := by
  unfold digits at h
  split at h
  · cases h
  · rename_i numeral
    rw [not_or, Bool.not_eq_true', Bool.not_eq_false, List.all_eq_true] at numeral
    split at h
    · rename_i fits
      cases h
      exact ⟨numeral, rfl, fits⟩
    · cases h

theorem large_of_digits_eq_none (h : digits text = none) (numeral : Digits text) : wordSize ≤ decimal text := by
  unfold digits at h
  rw [if_neg (by rw [not_or, Bool.not_eq_true', Bool.not_eq_false, List.all_eq_true]; exact numeral)] at h
  split at h
  · cases h
  · rename_i large
    exact Nat.le_of_not_lt large

/-! ### One range -/

theorem Asks.positions {asked : Asked} (h : Asks value asked) :
    ∃ first last, positions value = some (first, last) ∧
      match asked with
      | .fromTo m n => Digits first ∧ Digits last ∧ decimal first = m ∧ decimal last = n ∧ m ≤ n
      | .onward n => Digits first ∧ last = [] ∧ decimal first = n
      | .suffix n => first = [] ∧ Digits last ∧ decimal last = n := by
  cases h with
  | fromTo writes numeral numeral' valid => exact
      ⟨_, _, positions_of_writes writes numeral.2 numeral'.2, numeral, numeral', rfl, rfl, valid⟩
  | onward writes numeral => exact ⟨_, _, positions_of_writes writes numeral.2 .nil, numeral, rfl, rfl⟩
  | suffix writes numeral => exact ⟨_, _, positions_of_writes writes .nil numeral.2, rfl, numeral, rfl⟩

/-- A header asks for one range at most. -/
theorem Asks.unique {asked asked' : Asked} (h : Asks value asked) (h' : Asks value asked') : asked = asked' := by
  obtain ⟨first, last, eq, fields⟩ := h.positions
  obtain ⟨_, _, eq', fields'⟩ := h'.positions
  cases eq.symm.trans eq'
  cases asked <;> cases asked' <;> dsimp only at fields fields'
  · rw [← fields.2.2.1, ← fields.2.2.2.1, fields'.2.2.1, fields'.2.2.2.1]
  · exact absurd fields'.2.1 fields.2.1.1
  · exact absurd fields'.1 fields.1.1
  · exact absurd fields.2.1 fields'.2.1.1
  · rw [← fields.2.2, fields'.2.2]
  · exact absurd fields'.1 fields.1.1
  · exact absurd fields.1 fields'.1.1
  · exact absurd fields.1 fields'.1.1
  · rw [← fields.2.2, fields'.2.2]

theorem checkedSub_one (h : len ≠ 0) : checkedSub len 1 = some (len - 1) := if_pos (Nat.pos_of_ne_zero h)

/-- What is asked for is what is given, while its numbers have 64 bits; a header that asks for nothing or for more is ignored. -/
theorem range_cases (fits : len ≤ wordMax) (value : Str) :
    (∃ asked, Asks value asked ∧ asked.greatest < wordSize ∧ range value len = some (asked.select len)) ∨
      (∀ asked, Asks value asked → wordSize ≤ asked.greatest) ∧ range value len = some .whole := by
  unfold range
  cases cut : positions value with
  | none =>
    refine .inr ⟨fun asked asks => ?_, rfl⟩
    obtain ⟨_, _, some, -⟩ := asks.positions
    cases cut.symm.trans some
  | some parts =>
    obtain ⟨first, last⟩ := parts
    have writes := writes_of_positions cut
    dsimp only
    by_cases hf : first = []
    · subst hf
      rw [if_pos rfl]
      cases hl : digits last with
      | none =>
        refine .inr ⟨fun asked asks => ?_, rfl⟩
        obtain ⟨_, _, eq, fields⟩ := asks.positions
        cases cut.symm.trans eq
        cases asked with
        | fromTo m n => exact absurd rfl fields.1.1
        | onward n => exact absurd rfl fields.1.1
        | suffix n => exact fields.2.2 ▸ large_of_digits_eq_none hl fields.2.1
      | some n =>
        obtain ⟨numeral, rfl, small⟩ := digits_eq_some hl
        refine .inl ⟨_, .suffix writes numeral, small, ?_⟩
        cases hn : decimal last with
        | zero => rfl
        | succ n =>
          change (if len = 0 then some unsatisfiable else (checkedSub len 1).map (.part (len - (n + 1)))) = _
          dsimp only [Asked.select]
          by_cases empty : len = 0
          · rw [if_pos empty, if_neg fun h => Nat.ne_of_gt h.2 empty]
          · rw [if_neg empty, checkedSub_one empty, if_pos ⟨Nat.succ_pos n, Nat.pos_of_ne_zero empty⟩]
            rfl
    · rw [if_neg hf]
      cases hn : digits first with
      | none =>
        refine .inr ⟨fun asked asks => ?_, rfl⟩
        obtain ⟨_, _, eq, fields⟩ := asks.positions
        cases cut.symm.trans eq
        cases asked with
        | fromTo m n => exact Nat.le_trans (fields.2.2.1 ▸ large_of_digits_eq_none hn fields.1) fields.2.2.2.2
        | onward n => exact fields.2.2 ▸ large_of_digits_eq_none hn fields.1
        | suffix n => exact absurd fields.1 hf
      | some start =>
        obtain ⟨numeral, rfl, small⟩ := digits_eq_some hn
        dsimp only
        by_cases hl : last = []
        · subst hl
          rw [if_pos rfl]
          refine .inl ⟨_, .onward writes numeral, small, ?_⟩
          dsimp only [Asked.select]
          by_cases past : len ≤ decimal first
          · rw [if_pos past, if_neg (Nat.not_lt_of_le past)]
          · have nonempty : len ≠ 0 := fun h => past (h ▸ Nat.zero_le _)
            rw [if_neg past, if_pos (Nat.lt_of_not_le past), checkedSub_one nonempty]
            exact congrArg (fun «end» => some (Range.part (decimal first) «end»)) (Nat.min_eq_right (Nat.le_trans (Nat.sub_le ..) fits))
        · rw [if_neg hl]
          have refused (h : ∀ asked, Asks value asked → wordSize ≤ asked.greatest) :
              (∃ asked, Asks value asked ∧ asked.greatest < wordSize ∧
              some Range.whole = some (asked.select len)) ∨ (∀ asked, Asks value asked → wordSize ≤ asked.greatest) ∧
                some Range.whole = some .whole := .inr ⟨h, rfl⟩
          cases hm : digits last with
          | none =>
            refine refused fun asked asks => ?_
            obtain ⟨_, _, eq, fields⟩ := asks.positions
            cases cut.symm.trans eq
            cases asked with
            | fromTo m n => exact fields.2.2.2.1 ▸ large_of_digits_eq_none hm fields.2.1
            | onward n => exact absurd fields.2.1 hl
            | suffix n => exact absurd fields.1 hf
          | some stop =>
            obtain ⟨numeral', rfl, small'⟩ := digits_eq_some hm
            by_cases valid : decimal first ≤ decimal last
            · rw [Option.filter_some, if_pos (decide_eq_true valid)]
              refine .inl ⟨_, .fromTo writes numeral numeral' valid, small', ?_⟩
              dsimp only [Asked.select]
              by_cases past : len ≤ decimal first
              · rw [if_pos past, if_neg (Nat.not_lt_of_le past)]
              · have nonempty : len ≠ 0 := fun h => past (h ▸ Nat.zero_le _)
                rw [if_neg past, if_pos (Nat.lt_of_not_le past), checkedSub_one nonempty]
                rfl
            · rw [Option.filter_some, if_neg (by rw [decide_eq_true_eq]; exact valid)]
              refine refused fun asked asks => ?_
              obtain ⟨_, _, eq, fields⟩ := asks.positions
              cases cut.symm.trans eq
              cases asked with
              | fromTo m n => exact absurd (fields.2.2.1 ▸ fields.2.2.2.1 ▸ fields.2.2.2.2) valid
              | onward n => exact absurd fields.2.1 hl
              | suffix n => exact absurd fields.1 hf

/-! ### Every header -/

theorem select_ne_whole (asked : Asked) (len : Nat) : asked.select len ≠ .whole := by
  cases asked <;> unfold Asked.select <;> dsimp only <;> split <;> nofun

theorem select_within {asked : Asked} {start stop : Nat} (valid : ∀ m n, asked = .fromTo m n → m ≤ n)
    (h : asked.select len = .part start stop) : start ≤ stop ∧ stop < len := by
  cases asked with
  | fromTo first last =>
    have le := valid first last rfl
    dsimp only [Asked.select] at h
    split at h
    · cases h
      omega
    · cases h
  | onward first =>
    dsimp only [Asked.select] at h
    split at h
    · cases h
      omega
    · cases h
  | suffix length =>
    dsimp only [Asked.select] at h
    split at h
    · cases h
      omega
    · cases h

theorem Asks.valid {asked : Asked} (h : Asks value asked) (m n : Nat) (eq : asked = .fromTo m n) : m ≤ n := by
  cases h with
  | fromTo _ _ _ valid =>
    cases eq
    exact valid
  | _ => cases eq

/-- The range is the right one exactly for a header that writes no number of more than 64 bits in one valid range. -/
theorem range_right_iff (fits : len ≤ wordMax) (value : Str) :
    Right value len (range value len) ↔ ∀ asked, Asks value asked → asked.greatest < wordSize := by
  rcases range_cases fits value with ⟨asked, asks, small, eq⟩ | ⟨large, eq⟩
  · rw [eq]
    refine ⟨fun _ other asks' => asks.unique asks' ▸ small, fun _ => ⟨⟨_, rfl⟩, ?_, ?_⟩⟩
    · rintro _ ⟨⟩
      exact .asked asks
    · intro start stop part
      exact select_within asks.valid (Option.some.inj part)
  · rw [eq]
    constructor
    · intro right asked asks
      have selects := right.rules _ rfl
      generalize whole : Range.whole = r at selects
      cases selects with
      | asked asks' => exact absurd whole.symm (select_ne_whole _ _)
      | ignored none => exact absurd asks (none asked)
    · intro small
      refine ⟨⟨_, rfl⟩, ?_, nofun⟩
      rintro _ ⟨⟩
      exact .ignored fun asked asks => Nat.not_le_of_lt (small asked asks) (large asked asks)

end

/-- `bytes=0-18446744073709551616`. -/
def endless : Str := BYTES ++ [61, 48, 45, 49, 56, 52, 52, 54, 55, 52, 52, 48, 55, 51, 55, 48, 57, 53, 53, 49, 54, 49, 54]

/-- Its last position is past the end of ten bytes, and is to be cut. -/
theorem endless_ignored : range endless 10 = some .whole ∧ ¬Right endless 10 (range endless 10) := by
  have ignored : range endless 10 = some .whole := by decide
  refine ⟨ignored, fun right => ?_⟩
  have selects := right.rules _ ignored
  have asks : Asks endless (.fromTo 0 18446744073709551616) := by
    have writes : Writes endless [48] (endless.drop 8) := by
      refine ⟨BYTES, BYTES, [48], endless.drop 8, rfl, ?_, rfl, ?_, ?_⟩
      · exact ⟨[], [], rfl, nofun, nofun⟩
      · exact ⟨[], [], rfl, nofun, nofun⟩
      · exact ⟨[], [], rfl, nofun, nofun⟩
    refine .fromTo writes ?_ ?_ ?_
    · exact ⟨nofun, List.all_iff_forall_prop.mp (by decide)⟩
    · exact ⟨nofun, List.all_iff_forall_prop.mp (by decide)⟩
    · decide
  generalize whole : Range.whole = r at selects
  cases selects with
  | asked asks' => exact select_ne_whole _ _ whole.symm
  | ignored none => exact none _ asks

/-- `bytes=-0`, of an empty file. -/
theorem range_right_iff_emptySuffix :
    Right [98, 121, 116, 101, 115, 61, 45, 48] 0 (range [98, 121, 116, 101, 115, 61, 45, 48] 0) := by
  refine (range_right_iff (Nat.zero_le _) _).mpr fun asked asks => ?_
  obtain ⟨_, _, eq, fields⟩ := asks.positions
  cases eq
  cases asked with
  | fromTo m n => exact absurd rfl fields.1.1
  | onward n => exact absurd rfl fields.1.1
  | suffix n => exact fields.2.2 ▸ by decide

end Range

end Tgin.Gateway
