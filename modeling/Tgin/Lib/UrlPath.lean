import Mathlib.Data.Bool.AllAny
import Mathlib.Data.List.Basic
import Mathlib.Tactic.FinCases

/-! The path of a special URL, as the URL standard reads it: cut into segments, of which those made of one or two dots go or take
    the one before along, and percent-encoded.

    A text is the bytes of its UTF-8. A path is given to a URL that exists, so a `?` or a `#` does not end it. -/

namespace UrlPath

abbrev slash : UInt8 := 47

abbrev backslash : UInt8 := 92

abbrev percent : UInt8 := 37

/-- A byte of the path percent-encode set: controls and spaces, what is not ASCII, and `"`, `#`, `<`, `>`, `?`, `^`, `` ` ``, `{`, `}`. -/
def encodes (b : UInt8) : Bool :=
  b ≤ 32 || 126 < b || b = 34 || b = 35 || b = 60 || b = 62 || b = 63 || b = 94 || b = 96 || b = 123 || b = 125

def hexDigit (n : UInt8) : UInt8 := if n < 10 then 48 + n else 55 + n

/-- Percent-encodes the bytes of a set. -/
def percentEncode (set : UInt8 → Bool) (text : List UInt8) : List UInt8 :=
  text.flatMap fun b => if set b then [percent, hexDigit (b >>> 4), hexDigit (b &&& 15)] else [b]

def encode (text : List UInt8) : List UInt8 := percentEncode encodes text

def lowerByte (b : UInt8) : UInt8 := if 65 ≤ b ∧ b ≤ 90 then b + 32 else b

def lowercase (text : List UInt8) : List UInt8 := text.map lowerByte

/-- `.` and `%2e`. -/
def DOT : List (List UInt8) := [[46], [37, 50, 101]]

/-- `..`, `.%2e`, `%2e.` and `%2e%2e`. -/
def DOTS : List (List UInt8) := [[46, 46], [46, 37, 50, 101], [37, 50, 101, 46], [37, 50, 101, 37, 50, 101]]

def isSingleDot (segment : List UInt8) : Bool := lowercase segment ∈ DOT

def isDoubleDot (segment : List UInt8) : Bool := lowercase segment ∈ DOTS

/-- A segment that the path does not keep. -/
def isDots (segment : List UInt8) : Bool := isSingleDot segment || isDoubleDot segment

def isSeparator (b : UInt8) : Bool := b = slash || b = backslash

/-- The path once a segment has come to its end; `last` is whether the text has too. -/
def close (last : Bool) (buffer : List UInt8) (path : List (List UInt8)) : List (List UInt8) :=
  if isDoubleDot buffer then if last then path.dropLast ++ [[]] else path.dropLast
  else if isSingleDot buffer then if last then path ++ [[]] else path
  else path ++ [buffer]

/-- The path state: what it makes of the rest of a text. -/
def state : List UInt8 → (buffer : List UInt8) → (path : List (List UInt8)) → List (List UInt8)
  | [], buffer, path => close true buffer path
  | b :: rest, buffer, path =>
    if isSeparator b then state rest [] (close false buffer path) else state rest (buffer ++ encode [b]) path

/-- The segments of the path that a text gives: a separator it starts with only begins the first. -/
def segments : List UInt8 → List (List UInt8)
  | [] => state [] [] []
  | b :: rest => if isSeparator b then state rest [] [] else state (b :: rest) [] []

def serialize (path : List (List UInt8)) : List UInt8 := path.flatMap (slash :: ·)

/-- The path of a URL given a text for it. -/
def parse (text : List UInt8) : List UInt8 := serialize (segments text)

/-! ### Bytes -/

section
variable {b : UInt8} {text segment : List UInt8}

theorem percentEncode_append (set : UInt8 → Bool) (text other : List UInt8) :
    percentEncode set (text ++ other) = percentEncode set text ++ percentEncode set other := List.flatMap_append ..

theorem percentEncode_eq_self {set : UInt8 → Bool} (h : ∀ b ∈ text, set b = false) : percentEncode set text = text := by
  induction text with
  | nil => rfl
  | cons b text ih =>
    have first := h b List.mem_cons_self
    have rest := ih fun b hb => h b (List.mem_cons_of_mem _ hb)
    simp only [percentEncode, List.flatMap_cons, first, Bool.false_eq_true, if_false] at rest ⊢
    rw [rest]
    rfl

theorem encode_append (text other : List UInt8) : encode (text ++ other) = encode text ++ encode other := percentEncode_append ..

theorem encode_cons (b : UInt8) (text : List UInt8) : encode (b :: text) = encode [b] ++ encode text := encode_append [b] text

/-- A fact of bytes holds if it does of each. -/
theorem forall_byte {P : UInt8 → Prop} (h : ∀ n : Fin 256, P (UInt8.ofNat n)) (b : UInt8) : P b := by
  have := h ⟨b.toNat, UInt8.toNat_lt b⟩
  rwa [UInt8.ofNat_toNat] at this

theorem hexDigit_plain : ∀ n : Fin 16, encodes (hexDigit (.ofNat n)) = false ∧ isSeparator (hexDigit (.ofNat n)) = false := by decide

theorem hexDigit_of_lt {n : UInt8} (h : n.toNat < 16) : encodes (hexDigit n) = false ∧ isSeparator (hexDigit n) = false := by
  have := hexDigit_plain ⟨n.toNat, h⟩
  rwa [UInt8.ofNat_toNat] at this

theorem high_lt (b : UInt8) : (b >>> 4).toNat < 16 := by
  have := UInt8.toNat_lt b
  simp [Nat.shiftRight_eq_div_pow]
  omega

theorem low_lt (b : UInt8) : (b &&& 15).toNat < 16 := by
  rw [UInt8.toNat_and]
  exact Nat.lt_of_le_of_lt Nat.and_le_right (by decide)

/-- What a byte becomes needs no encoding, and has no separator that it is not itself. -/
theorem mem_percentEncode {set : UInt8 → Bool} {c : UInt8} (h : c ∈ percentEncode set text) :
    (encodes c = false ∧ isSeparator c = false) ∨ c ∈ text ∧ set c = false := by
  obtain ⟨b, hb, h⟩ := List.mem_flatMap.mp h
  split at h
  · rcases List.mem_cons.mp h with rfl | h
    · exact .inl ⟨rfl, rfl⟩
    · rcases List.mem_cons.mp h with rfl | h
      · exact .inl (hexDigit_of_lt (high_lt b))
      · exact .inl (List.mem_singleton.mp h ▸ hexDigit_of_lt (low_lt b))
  · rename_i plain
    obtain rfl := List.mem_singleton.mp h
    exact .inr ⟨hb, Bool.eq_false_iff.mpr plain⟩

/-! ### Dots -/

theorem isDots_iff : isDots segment = true ↔ lowercase segment ∈ DOT ++ DOTS := by
  rw [isDots, Bool.or_eq_true, List.mem_append, isSingleDot, isDoubleDot, decide_eq_true_eq, decide_eq_true_eq]

set_option maxRecDepth 2000 in
theorem encodes_of_lowerByte : ∀ b : UInt8, lowerByte b ∈ [(46 : UInt8), 37, 50, 101] → encodes b = false :=
  forall_byte (by decide)

set_option maxRecDepth 2000 in
theorem eq_dot_of_hexDigits : ∀ b : UInt8, lowerByte (hexDigit (b >>> 4)) = 50 ∧ lowerByte (hexDigit (b &&& 15)) = 101 → b = 46 :=
  forall_byte (by decide)

/-- The bytes that dots are spelled with, in lower case. -/
theorem spelled {text : List UInt8} (h : text ∈ DOT ++ DOTS) : ∀ b ∈ text, b ∈ [(46 : UInt8), 37, 50, 101] := by
  have all : (DOT ++ DOTS).all fun text => text.all fun b => b ∈ [(46 : UInt8), 37, 50, 101] := by decide
  exact List.all_iff_forall_prop.mp (List.all_eq_true.mp all text h)

/-- In the spellings of dots, `2e` follows every `%`. -/
theorem spelled_percent : ∀ text ∈ DOT ++ DOTS, ∀ i < text.length, text[i]? = some percent →
    text[i + 1]? = some 50 ∧ text[i + 2]? = some 101 := by
  decide

/-- A byte that is encoded, no dot itself, is in no spelling of dots. -/
theorem isDots_percentEncode {set : UInt8 → Bool} (dot : set 46 = false) {b : UInt8} (hb : b ∈ text) (encoded : set b = true) :
    isDots (percentEncode set text) = false := by
  rw [← Bool.not_eq_true, isDots_iff]
  intro dots
  obtain ⟨left, right, rfl⟩ := List.append_of_mem hb
  rw [percentEncode_append] at dots
  simp only [percentEncode, List.flatMap_cons, encoded, if_true, lowercase, List.map_append, List.map_cons, List.cons_append,
    List.nil_append] at dots
  rw [show lowerByte percent = percent from rfl] at dots
  have next := spelled_percent _ dots ((percentEncode set left).map lowerByte).length (by simp [percentEncode]) (by simp [percentEncode])
  simp only [percentEncode] at next
  simp at next
  rw [eq_dot_of_hexDigits b next] at encoded
  exact Bool.false_ne_true (dot.symm.trans encoded)

/-- Encoding neither makes dots nor hides them. -/
theorem isDots_encode (text : List UInt8) : isDots (encode text) = isDots text := by
  by_cases plain : ∀ b ∈ text, encodes b = false
  · rw [encode, percentEncode_eq_self plain]
  · simp only [not_forall, Bool.not_eq_false] at plain
    obtain ⟨b, hb, encoded⟩ := plain
    rw [encode, isDots_percentEncode rfl hb encoded]
    refine (Bool.eq_false_iff.mpr fun dots => ?_).symm
    have low := spelled (isDots_iff.mp dots) _ (List.mem_map_of_mem hb)
    exact Bool.false_ne_true ((encodes_of_lowerByte b low).symm.trans encoded)

end

/-! ### Paths -/

/-- A path that reading it again would leave as it is. -/
structure Normal (path : List (List UInt8)) : Prop where
  ne : path ≠ []
  dots : ∀ segment ∈ path, isDots segment = false
  encoded : ∀ segment ∈ path, ∀ b ∈ segment, encodes b = false
  separated : ∀ segment ∈ path, ∀ b ∈ segment, isSeparator b = false

section
variable {text raw rest buffer : List UInt8} {path : List (List UInt8)}

theorem serialize_append (path other : List (List UInt8)) : serialize (path ++ other) = serialize path ++ serialize other :=
  List.flatMap_append ..

theorem close_of_not_dots (h : isDots buffer = false) (last : Bool) (path : List (List UInt8)) :
    close last buffer path = path ++ [buffer] := by
  obtain ⟨single, double⟩ := Bool.or_eq_false_iff.mp h
  rw [close, double, single]
  rfl

theorem isSeparator_iff {b : UInt8} : isSeparator b = true ↔ b = slash ∨ b = backslash := by
  rw [isSeparator, Bool.or_eq_true, decide_eq_true_eq, decide_eq_true_eq]

/-- A text without `\` and without dots between its separators is kept, but for the encoding. -/
theorem state_plain (noSlash : slash ∉ raw) (noBackslash : backslash ∉ text)
    (dots : ∀ segment ∈ (raw ++ text).splitOn slash, isDots segment = false)
    (path : List (List UInt8)) : serialize (state text (encode raw) path) = serialize path ++ slash :: encode raw ++ encode text := by
  induction text generalizing raw path with
  | nil =>
    rw [List.append_nil, List.splitOn_eq_singleton noSlash] at dots
    have kept := dots raw List.mem_cons_self
    rw [state, close_of_not_dots (by rw [isDots_encode, kept]), serialize_append]
    simp [serialize, encode, percentEncode]
  | cons b text ih =>
    have others : backslash ∉ text := fun h => noBackslash (List.mem_cons_of_mem _ h)
    by_cases hb : b = slash
    · subst hb
      rw [List.splitOn_append_cons_self_of_not_mem noSlash] at dots
      have kept := dots raw List.mem_cons_self
      have rest := @ih [] List.not_mem_nil others (fun segment h => dots segment (List.mem_cons_of_mem _ h))
        (path ++ [encode raw])
      rw [state, if_pos (show isSeparator slash = true from rfl), close_of_not_dots (by rw [isDots_encode, kept])]
      refine rest.trans ?_
      rw [serialize_append, encode_cons, show encode [slash] = [slash] from rfl]
      simp [serialize, encode, percentEncode]
    · have plain : ¬isSeparator b = true := fun h => (isSeparator_iff.mp h).elim hb fun h => noBackslash (h ▸ List.mem_cons_self)
      have rest := @ih (raw ++ [b]) (by simp [noSlash, Ne.symm hb]) others (by rwa [List.append_assoc]) path
      rw [encode_append] at rest
      rw [state, if_neg plain, rest, encode_cons b text]
      simp

/-- What a path grows by is normal. -/
theorem normal_close (clean : ∀ segment ∈ path, isDots segment = false ∧ ∀ b ∈ segment, encodes b = false ∧ isSeparator b = false)
    (encoded : ∀ b ∈ buffer, encodes b = false ∧ isSeparator b = false) (last : Bool) :
    ∀ segment ∈ close last buffer path, isDots segment = false ∧ ∀ b ∈ segment, encodes b = false ∧ isSeparator b = false := by
  have empty : isDots [] = false ∧ ∀ b ∈ ([] : List UInt8), encodes b = false ∧ isSeparator b = false := ⟨rfl, nofun⟩
  unfold close
  split
  · split
    · exact List.forall_mem_append.mpr ⟨fun segment h => clean segment ((List.dropLast_sublist _).subset h),
        List.forall_mem_singleton.mpr empty⟩
    · exact fun segment h => clean segment ((List.dropLast_sublist _).subset h)
  · rename_i double
    split
    · split
      · exact List.forall_mem_append.mpr ⟨clean, List.forall_mem_singleton.mpr empty⟩
      · exact clean
    · rename_i single
      refine List.forall_mem_append.mpr ⟨clean, List.forall_mem_singleton.mpr ⟨?_, encoded⟩⟩
      rw [isDots, Bool.eq_false_iff.mpr double, Bool.eq_false_iff.mpr single]
      rfl

theorem close_last_ne_nil (buffer : List UInt8) (path : List (List UInt8)) : close true buffer path ≠ [] := by
  unfold close
  split
  · exact List.append_ne_nil_of_right_ne_nil _ (List.cons_ne_nil _ _)
  · split
    · exact List.append_ne_nil_of_right_ne_nil _ (List.cons_ne_nil _ _)
    · exact List.append_ne_nil_of_right_ne_nil _ (List.cons_ne_nil _ _)

theorem normal_state (clean : ∀ segment ∈ path, isDots segment = false ∧ ∀ b ∈ segment, encodes b = false ∧ isSeparator b = false)
    (encoded : ∀ b ∈ buffer, encodes b = false ∧ isSeparator b = false) : Normal (state text buffer path) := by
  induction text generalizing buffer path with
  | nil =>
    have all := normal_close clean encoded true
    rw [state]
    exact ⟨close_last_ne_nil _ _, fun s h => (all s h).1, fun s h b hb => ((all s h).2 b hb).1, fun s h b hb => ((all s h).2 b hb).2⟩
  | cons b text ih =>
    rw [state]
    split
    · exact ih (normal_close clean encoded false) nofun
    · rename_i plain
      refine ih clean (List.forall_mem_append.mpr ⟨encoded, fun c hc => ?_⟩)
      rcases mem_percentEncode hc with done | ⟨hc, done⟩
      · exact done
      · rw [List.mem_singleton.mp hc] at done ⊢
        exact ⟨done, Bool.eq_false_iff.mpr plain⟩

theorem normal_segments (text : List UInt8) : Normal (segments text) := by
  cases text with
  | nil => exact normal_state nofun nofun
  | cons b rest =>
    rw [segments]
    split
    · exact normal_state nofun nofun
    · exact normal_state nofun nofun

theorem Normal.mem_serialize {b : UInt8} (normal : Normal path) (h : b ∈ serialize path) :
    b = slash ∨ encodes b = false ∧ isSeparator b = false := by
  obtain ⟨segment, mem, hb⟩ := List.mem_flatMap.mp h
  exact (List.mem_cons.mp hb).imp_right fun hb => ⟨normal.encoded segment mem b hb, normal.separated segment mem b hb⟩

/-- A path needs no encoding. -/
theorem encodes_of_mem_parse {b : UInt8} (h : b ∈ parse text) : encodes b = false := by
  rcases (normal_segments text).mem_serialize h with rfl | ⟨done, -⟩
  · rfl
  · exact done

theorem state_concat (text buffer : List UInt8) (path : List (List UInt8)) :
    ∃ kept, state (text ++ [slash]) buffer path = kept ++ [[]] := by
  induction text generalizing buffer path with
  | nil => exact ⟨close false buffer path, rfl⟩
  | cons b text ih =>
    rw [List.cons_append, state]
    split
    · exact ih _ _
    · exact ih _ _

/-- A path ends with the separator that its text does. -/
theorem getLast?_parse (text : List UInt8) : (parse (text ++ [slash])).getLast? = some slash := by
  have ends : ∃ kept, segments (text ++ [slash]) = kept ++ [[]] := by
    cases text with
    | nil => exact ⟨[], rfl⟩
    | cons b text =>
      rw [List.cons_append, segments]
      split
      · exact state_concat _ _ _
      · exact state_concat (b :: text) _ _
  obtain ⟨kept, eq⟩ := ends
  rw [parse, eq, serialize_append]
  exact List.getLast?_concat

/-! ### Below a path -/

theorem serialize_eq (path : List (List UInt8)) (ne : path ≠ []) : serialize path = slash :: List.intercalate [slash] path := by
  induction path with
  | nil => exact absurd rfl ne
  | cons segment path ih =>
    rw [serialize, List.flatMap_cons]
    by_cases single : path = []
    · subst single
      rw [List.intercalate_singleton, List.flatMap_nil, List.append_nil]
    · rw [List.intercalate_cons_of_ne_nil single, show path.flatMap (slash :: ·) = serialize path from rfl, ih single]
      simp

/-- What follows a path that ends with `/` stays below it, unless it has `\` or dots. -/
theorem parse_append {base : List UInt8} (normal : ∃ text, base = parse text) (ends : base.getLast? = some slash)
    (noBackslash : backslash ∉ rest) (dots : ∀ segment ∈ rest.splitOn slash, isDots segment = false) :
    parse (base ++ rest) = base ++ encode rest := by
  obtain ⟨text, rfl⟩ := normal
  have normal := normal_segments text
  unfold parse at ends ⊢
  generalize segments text = path at normal ends ⊢
  have bytes := fun b => normal.mem_serialize (b := b)
  have cut := List.splitOn_intercalate slash (fun segment h mem => nomatch (normal.separated segment h slash mem)) normal.ne
  rw [serialize_eq path normal.ne] at bytes ends ⊢
  generalize List.intercalate [slash] path = tail at cut bytes ends ⊢
  have below : ∀ segment ∈ (tail ++ rest).splitOn slash, isDots segment = false := by
    rcases List.eq_nil_or_concat tail with rfl | ⟨init, last, rfl⟩
    · exact dots
    · rw [List.concat_eq_append, ← List.cons_append, List.getLast?_concat, Option.some.injEq] at ends
      subst ends
      rw [List.concat_eq_append, List.splitOn_append_cons_self] at cut
      rw [List.concat_eq_append, List.append_assoc, List.singleton_append, List.splitOn_append_cons_self]
      refine List.forall_mem_append.mpr ⟨fun segment h => normal.dots segment ?_, dots⟩
      rw [← cut]
      exact List.mem_append_left _ h
  have noBackslashes : backslash ∉ tail ++ rest := by
    rw [List.mem_append, not_or]
    refine ⟨fun mem => ?_, noBackslash⟩
    rcases bytes _ (List.mem_cons_of_mem _ mem) with h | ⟨-, h⟩ <;> cases h
  have encoded : encode tail = tail := percentEncode_eq_self fun b hb => by
    rcases bytes b (List.mem_cons_of_mem _ hb) with rfl | ⟨h, -⟩
    · rfl
    · exact h
  have kept := state_plain List.not_mem_nil noBackslashes below []
  rw [encode_append, encoded] at kept
  exact kept

end

end UrlPath
