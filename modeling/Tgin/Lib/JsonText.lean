import Mathlib.Data.Bool.AllAny
import Mathlib.Data.List.Basic

/-! The grammar of a JSON text, as the bytes of its UTF-8, and what a string literal stands for. -/

namespace JsonText

/-- `"`. -/
abbrev quote : UInt8 := 34

/-- `\`. -/
abbrev backslash : UInt8 := 92

/-- `u`. -/
abbrev letterU : UInt8 := 117

abbrev comma : UInt8 := 44

abbrev colon : UInt8 := 58

def isWhitespace (b : UInt8) : Bool := b = 32 || b = 9 || b = 10 || b = 13

def isDigit (b : UInt8) : Bool := 48 ≤ b && b ≤ 57

/-- What a number is written with. -/
def isNumeric (b : UInt8) : Bool := isDigit b || b = 45 || b = 43 || b = 46 || b = 69 || b = 101

/-- What a hexadecimal digit stands for. -/
def hexDigit (b : UInt8) : Option Nat :=
  if 48 ≤ b && b ≤ 57 then some (b.toNat - 48)
  else if 97 ≤ b && b ≤ 102 then some (b.toNat - 87)
  else if 65 ≤ b && b ≤ 70 then some (b.toNat - 55)
  else none

/-- What the byte after a `\` stands for: each but `u`. -/
def escape (b : UInt8) : Option UInt8 :=
  if b = quote || b = backslash || b = 47 then some b
  else if b = 98 then some 8
  else if b = 102 then some 12
  else if b = 110 then some 10
  else if b = 114 then some 13
  else if b = 116 then some 9
  else none

/-- The four digits of a `\u` escape and the number they stand for. -/
inductive Hex : List UInt8 → Nat → Prop where
  | mk {a b c d : UInt8} {i j k l : Nat} (first : hexDigit a = some i) (second : hexDigit b = some j)
    (third : hexDigit c = some k) (fourth : hexDigit d = some l) :
    Hex [a, b, c, d] (((i * 16 + j) * 16 + k) * 16 + l)

theorem Hex.length {digits : List UInt8} {n : Nat} (h : Hex digits n) : digits.length = 4 := by
  cases h
  rfl

/-- What stands between the quotes of a string literal. -/
inductive Chars : List UInt8 → Prop where
  | nil : Chars []
  | plain {b : UInt8} {rest : List UInt8} (control : 32 ≤ b) (noQuote : b ≠ quote) (noEscape : b ≠ backslash) :
    Chars rest → Chars (b :: rest)
  | escape {e b : UInt8} {rest : List UInt8} (escape : escape e = some b) : Chars rest → Chars (backslash :: e :: rest)
  | unicode {digits rest : List UInt8} {n : Nat} (hex : Hex digits n) :
    Chars rest → Chars (backslash :: letterU :: digits ++ rest)

theorem Chars.of_plain {text : List UInt8} (h : ∀ b ∈ text, 32 ≤ b ∧ b ≠ quote ∧ b ≠ backslash) : Chars text := by
  induction text with
  | nil => exact .nil
  | cons b text ih =>
    obtain ⟨control, noQuote, noEscape⟩ := h b List.mem_cons_self
    exact .plain control noQuote noEscape (ih fun c hc => h c (List.mem_cons_of_mem _ hc))

/-- The text, as UTF-8, that stands between the quotes of a string literal: a `\u` escape stands for a character, or two of
    them for one beyond the basic plane. -/
inductive Stands : List UInt8 → List UInt8 → Prop where
  | nil : Stands [] []
  | plain {b : UInt8} {rest text : List UInt8} (noQuote : b ≠ quote) (noEscape : b ≠ backslash) :
    Stands rest text → Stands (b :: rest) (b :: text)
  | escape {e b : UInt8} {rest text : List UInt8} (escape : escape e = some b) :
    Stands rest text → Stands (backslash :: e :: rest) (b :: text)
  | unicode {digits rest text : List UInt8} {n : Nat} (hex : Hex digits n) (c : Char) (char : c.toNat = n) :
    Stands rest text → Stands (backslash :: letterU :: digits ++ rest) (String.utf8EncodeChar c ++ text)
  | surrogates {high low rest text : List UInt8} {m n : Nat} (hexHigh : Hex high m) (hexLow : Hex low n)
    (rangeHigh : 0xD800 ≤ m ∧ m < 0xDC00) (rangeLow : 0xDC00 ≤ n ∧ n < 0xE000) (c : Char)
    (char : c.toNat = 0x10000 + (m - 0xD800) * 0x400 + (n - 0xDC00)) :
    Stands rest text →
      Stands (backslash :: letterU :: high ++ (backslash :: letterU :: low ++ rest)) (String.utf8EncodeChar c ++ text)

/-- A literal without escapes stands for itself alone. -/
theorem Stands.eq_of_plain {inner text : List UInt8} (h : Stands inner text) (plain : backslash ∉ inner) : text = inner := by
  induction h with
  | nil => rfl
  | plain _ _ _ ih => rw [ih fun mem => plain (List.mem_cons_of_mem _ mem)]
  | _ => exact absurd List.mem_cons_self plain

/-- What stands between quotes, with them. -/
def quoted (inner : List UInt8) : List UInt8 := quote :: inner ++ [quote]

def Digits (digits : List UInt8) : Prop := digits ≠ [] ∧ ∀ b ∈ digits, isDigit b

/-- A sign, digits, a fraction and an exponent. -/
structure Number where
  minus : Bool
  int : List UInt8
  fraction : Option (List UInt8)
  exponent : Option (UInt8 × Option UInt8 × List UInt8)

namespace Number

def bytes (n : Number) : List UInt8 :=
  (if n.minus then [45] else []) ++ n.int ++ n.fraction.elim [] (46 :: ·) ++
    n.exponent.elim [] fun e => e.1 :: e.2.1.toList ++ e.2.2

structure Formed (n : Number) : Prop where
  int : Digits n.int
  noLeadingZero : n.int.head? = some 48 → n.int = [48]
  fraction : ∀ digits, n.fraction = some digits → Digits digits
  exponent : ∀ e sign digits, n.exponent = some (e, sign, digits) →
    (e = 69 ∨ e = 101) ∧ (∀ s, sign = some s → s = 43 ∨ s = 45) ∧ Digits digits

end Number

/-- A value between whitespace. -/
structure Padded where
  before : List UInt8
  value : List UInt8
  after : List UInt8

namespace Padded

def bytes (p : Padded) : List UInt8 := p.before ++ p.value ++ p.after

def Spaced (p : Padded) : Prop := (∀ b ∈ p.before, isWhitespace b) ∧ ∀ b ∈ p.after, isWhitespace b

end Padded

/-- A member of an object: its key, without the quotes, and its value. -/
structure Member where
  key : Padded
  value : Padded

namespace Member

def bytes (m : Member) : List UInt8 :=
  m.key.before ++ quoted m.key.value ++ m.key.after ++ [colon] ++ m.value.bytes

structure Formed (m : Member) : Prop where
  key : m.key.Spaced ∧ Chars m.key.value
  value : m.value.Spaced

end Member

/-- Between brackets, with commas between. -/
def array (elements : List Padded) : List UInt8 := 91 :: List.intercalate [comma] (elements.map Padded.bytes) ++ [93]

/-- Between braces, with commas between. -/
def object (members : List Member) : List UInt8 := 123 :: List.intercalate [comma] (members.map Member.bytes) ++ [125]

/-- `null`, `true` and `false`. -/
def words : List (List UInt8) := [[110, 117, 108, 108], [116, 114, 117, 101], [102, 97, 108, 115, 101]]

inductive Value : List UInt8 → Prop where
  | word {word : List UInt8} (mem : word ∈ words) : Value word
  | number (n : Number) (formed : n.Formed) : Value n.bytes
  | string {inner : List UInt8} (chars : Chars inner) : Value (quoted inner)
  | emptyArray {space : List UInt8} (spaced : ∀ b ∈ space, isWhitespace b) : Value (91 :: space ++ [93])
  | array (elements : List Padded) (spaced : ∀ e ∈ elements, e.Spaced) (values : ∀ e ∈ elements, Value e.value) :
    Value (array elements)
  | emptyObject {space : List UInt8} (spaced : ∀ b ∈ space, isWhitespace b) : Value (123 :: space ++ [125])
  | object (members : List Member) (formed : ∀ m ∈ members, m.Formed) (values : ∀ m ∈ members, Value m.value.value) :
    Value (object members)

/-- An object between whitespace that has the members, one at least. -/
structure IsObject (text : List UInt8) (members : List Member) : Prop where
  text : ∃ before after, text = before ++ object members ++ after ∧ (∀ b ∈ before, isWhitespace b) ∧
    ∀ b ∈ after, isWhitespace b
  formed : ∀ m ∈ members, m.Formed
  values : ∀ m ∈ members, Value m.value.value

/-! ### Where quotes are -/

theorem not_quote_of_isWhitespace {b : UInt8} (h : isWhitespace b) : b ≠ quote := by
  rintro rfl
  cases h

theorem not_quote_of_mem_words {word : List UInt8} (h : word ∈ words) : ∀ b ∈ word, b ≠ quote := by
  have all : ∀ word ∈ words, word.all fun b => b ≠ quote := by decide
  exact List.all_iff_forall_prop.mp (all word h)

namespace Number.Formed
variable {n : Number} (formed : n.Formed)
include formed

/-- A number begins with its sign or a digit. -/
theorem first {b : UInt8} {rest : List UInt8} (h : n.bytes = b :: rest) : b = 45 ∨ isDigit b := by
  unfold Number.bytes at h
  cases minus : n.minus with
  | true =>
    rw [minus] at h
    exact .inl (List.cons.inj h).1.symm
  | false =>
    obtain ⟨ne, digits⟩ := formed.int
    obtain ⟨first, others, eq⟩ := List.exists_cons_of_ne_nil ne
    rw [minus, eq] at h
    obtain rfl := (List.cons.inj h).1
    exact .inr (digits first (eq ▸ List.mem_cons_self))

theorem ne_nil : n.bytes ≠ [] := by
  intro nil
  simp only [Number.bytes, List.append_eq_nil_iff] at nil
  exact formed.int.1 nil.1.1.2

theorem numeric : ∀ b ∈ n.bytes, isNumeric b := by
  have digits {ds : List UInt8} (h : Digits ds) : ∀ b ∈ ds, isNumeric b := fun b hb => by simp [isNumeric, h.2 b hb]
  have sign : ∀ b ∈ if n.minus then [(45 : UInt8)] else [], isNumeric b := by
    split
    · exact List.forall_mem_singleton.mpr rfl
    · nofun
  have fraction : ∀ b ∈ n.fraction.elim [] (46 :: ·), isNumeric b := by
    cases eq : n.fraction with
    | none => nofun
    | some ds => exact List.forall_mem_cons.mpr ⟨rfl, digits (formed.fraction ds eq)⟩
  have exponent : ∀ b ∈ n.exponent.elim [] fun e => e.1 :: e.2.1.toList ++ e.2.2, isNumeric b := by
    cases eq : n.exponent with
    | none => nofun
    | some exponent =>
      obtain ⟨e, s, ds⟩ := exponent
      obtain ⟨he, hs, hds⟩ := formed.exponent e s ds eq
      refine List.forall_mem_append.mpr ⟨List.forall_mem_cons.mpr ⟨?_, fun b hb => ?_⟩, digits hds⟩
      · change isNumeric e
        rcases he with rfl | rfl <;> rfl
      · rcases hs b (Option.mem_toList.mp hb) with rfl | rfl <;> rfl
  unfold Number.bytes
  exact List.forall_mem_append.mpr
    ⟨List.forall_mem_append.mpr ⟨List.forall_mem_append.mpr ⟨sign, digits formed.int⟩, fraction⟩, exponent⟩

theorem not_quote : ∀ b ∈ n.bytes, b ≠ quote := by
  rintro b hb rfl
  exact absurd (formed.numeric quote hb) (by decide)

end Number.Formed

/-- A value that begins with `"` is a string. -/
theorem Value.string_of_quote {rest : List UInt8} (h : Value (quote :: rest)) :
    ∃ inner, Chars inner ∧ quote :: rest = quoted inner := by
  generalize eq : quote :: rest = value at h
  cases h with
  | word mem => exact absurd rfl (not_quote_of_mem_words mem quote (eq ▸ List.mem_cons_self))
  | number n formed => exact absurd rfl (formed.not_quote quote (eq ▸ List.mem_cons_self))
  | string chars => exact ⟨_, chars, rfl⟩
  | _ => cases eq

/-- A value that begins with `f` is `false`. -/
theorem Value.false_of_f {rest : List UInt8} (h : Value (102 :: rest)) : rest = [97, 108, 115, 101] := by
  generalize eq : 102 :: rest = value at h
  cases h with
  | word mem =>
    simp only [words, List.mem_cons, List.not_mem_nil, or_false] at mem
    rcases mem with rfl | rfl | rfl <;> cases eq
    rfl
  | number n formed => rcases formed.first eq.symm with digit | digit <;> cases digit
  | _ => cases eq

end JsonText
