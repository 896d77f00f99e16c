import Tgin.LocalFiles.Levels

/-! Urlencoded parameters as `gateway/local_files/http_reader.rs` reads them, byte by byte. -/

namespace Tgin.LocalFiles

/-- `&`. -/
abbrev ampersand : UInt8 := 38

/-- `=`. -/
abbrev equals : UInt8 := 61

/-- `%`. -/
abbrev percentSign : UInt8 := 37

/-- `+`. -/
abbrev plus : UInt8 := 43

/-- ` `. -/
abbrev space : UInt8 := 32

/-- Where an urlencoded text's scan is: pairs split on `&`, the name from the value on the first `=`; values, `+` as a
    space and percent-decoded (a `%` without two hex digits stays), are values at depth 0. -/
inductive Form where
  | name
  | value
  /-- After a `%` in a value. -/
  | percent
  /-- After a `%` and one hex digit. -/
  | percentDigit (first : UInt8)
  deriving DecidableEq, Repr

namespace Form

def valueByte (values : Levels) (b : UInt8) : Form × Levels :=
  if b = ampersand then (.name, values)
  else if b = percentSign then (.percent, values)
  else if b = plus then (.value, values.byte space)
  else (.value, values.byte b)

def byte (form : Form) (values : Levels) (b : UInt8) : Form × Levels :=
  match form with
  | .name => if b = equals then (.value, values.start) else (.name, values)
  | .value => valueByte values b
  | .percent => if (hex b).isSome then (.percentDigit b, values) else valueByte (values.byte percentSign) b
  | .percentDigit first =>
    match hex first, hex b with
    | some high, some low => (.value, values.byte (high <<< 4 ||| low))
    | _, _ => valueByte ((values.byte percentSign).byte first) b

/-- The text ended: a `%` it ended on is part of the last value. -/
def atEnd (form : Form) (values : Levels) : Form × Levels :=
  match form with
  | .percent => (.name, values.byte percentSign)
  | .percentDigit first => (.name, (values.byte percentSign).byte first)
  | .name | .value => (.name, values)

end Form

/-- `formHasLocalFile`, reading on from `form` and `values`. -/
def formScan (form : Form) (values : Levels) : Bytes → Bool
  | [] => (form.atEnd values).2.found
  | b :: text =>
    let (form, values) := form.byte values b
    if values.found then true else formScan form values text

/-- Whether an urlencoded text (a body, or a query string) carries a local file reference: any value, decoded as the
    server decodes it, JSON carried in it included. -/
def formHasLocalFile (text : Bytes) : Bool := formScan .name .default text

/-! ### Pair by pair -/

/-- `+` as a space. -/
def spaced (text : Bytes) : Bytes := text.map fun b => if b = plus then space else b

/-- What two hex digits after a `%` stand for. -/
def percentEscape (rest : Bytes) : Option UInt8 :=
  match rest with
  | high :: low :: _ => do some ((← hex high) <<< 4 ||| (← hex low))
  | _ => none

/-- What percent-encoding stands for; a `%` without two hex digits stands for itself. -/
def percentDecode : Bytes → Bytes
  | [] => []
  | b :: rest =>
    if b = percentSign then
      match percentEscape rest with
      | some c => c :: percentDecode (rest.drop 2)
      | none => b :: percentDecode rest
    else b :: percentDecode rest
  termination_by text => text.length
  decreasing_by
    · rw [List.length_drop]
      exact Nat.lt_succ_of_le (Nat.sub_le ..)
    · exact Nat.lt_succ_self _
    · exact Nat.lt_succ_self _

/-- What an urlencoded value stands for. -/
def urlDecode (text : Bytes) : Bytes := percentDecode (spaced text)

/-- The value of a pair, still encoded, where there is a `=`. -/
def pairValue (pair : Bytes) : Option Bytes :=
  match pair.dropWhile (· ≠ equals) with
  | [] => none
  | _ :: value => some value

/-- The values of an urlencoded text: pairs split on `&`, the name from the value on the first `=`. -/
def formValues (text : Bytes) : List Bytes := (text.splitOn ampersand).filterMap fun pair => (pairValue pair).map urlDecode

/-! ### Decoding -/

theorem percentDecode_cons {b : UInt8} (h : b ≠ percentSign) (rest : Bytes) : percentDecode (b :: rest) = b :: percentDecode rest := by
  rw [percentDecode, if_neg h]

theorem percentDecode_escape {rest : Bytes} {c : UInt8} (h : percentEscape rest = some c) :
    percentDecode (percentSign :: rest) = c :: percentDecode (rest.drop 2) := by
  rw [percentDecode, if_pos rfl, h]

theorem percentDecode_none {rest : Bytes} (h : percentEscape rest = none) :
    percentDecode (percentSign :: rest) = percentSign :: percentDecode rest := by
  rw [percentDecode, if_pos rfl, h]

theorem urlDecode_plus (rest : Bytes) : urlDecode (plus :: rest) = space :: urlDecode rest :=
  percentDecode_cons (by decide) _

theorem urlDecode_cons {b : UInt8} (hp : b ≠ plus) (h : b ≠ percentSign) (rest : Bytes) : urlDecode (b :: rest) = b :: urlDecode rest := by
  rw [urlDecode, spaced, List.map_cons, if_neg hp, percentDecode_cons h]
  rfl

theorem spaced_percent (rest : Bytes) : spaced (percentSign :: rest) = percentSign :: spaced rest := rfl

/-- A hex digit is no character that urlencoding knows. -/
theorem hex_plain {b : UInt8} (h : isHex b) : b ≠ ampersand ∧ b ≠ percentSign ∧ b ≠ plus := by
  refine ⟨?_, ?_, ?_⟩ <;> rintro rfl <;> exact absurd h (by decide)

theorem spaced_hex {b : UInt8} (h : isHex b) (rest : Bytes) : spaced (b :: rest) = b :: spaced rest := by
  rw [spaced, List.map_cons, if_neg (hex_plain h).2.2]
  rfl

/-- A `%` that no hex digit follows. -/
theorem urlDecode_percent {rest : Bytes} (h : ∀ b ∈ rest.head?, isHex b = false) :
    urlDecode (percentSign :: rest) = percentSign :: urlDecode rest := by
  rw [urlDecode, spaced_percent]
  refine percentDecode_none ?_
  rcases rest with _ | ⟨b, _ | ⟨c, rest⟩⟩
  · rfl
  · rfl
  · have hb : hex b = none := Option.not_isSome_iff_eq_none.mp (Bool.eq_false_iff.mp (h b rfl))
    have : hex (if b = plus then space else b) = none := by
      split
      · rfl
      · exact hb
    rw [spaced, List.map_cons, List.map_cons, percentEscape, this]
    rfl

/-- A `%` that one hex digit follows. -/
theorem urlDecode_digit {first : UInt8} (hf : isHex first) {rest : Bytes} (h : ∀ b ∈ rest.head?, isHex b = false) :
    urlDecode (percentSign :: first :: rest) = percentSign :: first :: urlDecode rest := by
  rw [urlDecode, spaced_percent, spaced_hex hf]
  have none : percentEscape (first :: spaced rest) = none := by
    rcases rest with _ | ⟨b, rest⟩
    · rfl
    · have hb : hex b = none := Option.not_isSome_iff_eq_none.mp (Bool.eq_false_iff.mp (h b rfl))
      have : hex (if b = plus then space else b) = none := by
        split
        · rfl
        · exact hb
      obtain ⟨digit, hdigit⟩ := Option.isSome_iff_exists.mp hf
      rw [spaced, List.map_cons, percentEscape, this, hdigit]
      rfl
  rw [percentDecode_none none, percentDecode_cons (hex_plain hf).2.1]
  rfl

/-- A `%` that two hex digits follow. -/
theorem urlDecode_digits {first b high low : UInt8} (hf : hex first = some high) (hb : hex b = some low) (rest : Bytes) :
    urlDecode (percentSign :: first :: b :: rest) = (high <<< 4 ||| low) :: urlDecode rest := by
  have isHex_of {b c : UInt8} (h : hex b = some c) : isHex b := by
    rw [isHex, h]
    rfl
  rw [urlDecode, spaced_percent, spaced_hex (isHex_of hf), spaced_hex (isHex_of hb)]
  refine percentDecode_escape ?_
  rw [percentEscape, hf, hb]
  rfl

/-! ### The rest of a value -/

/-- The values of a text in the middle of one, of which `text` has been decoded; `rest` goes on with it. -/
def extend (text rest : Bytes) : List Bytes :=
  match rest.splitOn ampersand with
  | [] => [text]
  | pair :: pairs => (text ++ urlDecode pair) :: pairs.filterMap fun pair => (pairValue pair).map urlDecode

theorem urlDecode_nil : urlDecode [] = [] := by
  rw [urlDecode, spaced, List.map_nil, percentDecode]

theorem extend_nil (text : Bytes) : extend text [] = [text] := by
  rw [extend, List.splitOn_nil]
  change [text ++ urlDecode []] = [text]
  rw [urlDecode_nil, List.append_nil]

theorem splitOn_ampersand (rest : Bytes) : (ampersand :: rest).splitOn ampersand = [] :: rest.splitOn ampersand := by
  rw [List.splitOn_cons_eq_if_modifyHead, if_pos (beq_self_eq_true _)]

theorem extend_ampersand (text rest : Bytes) : extend text (ampersand :: rest) = text :: formValues rest := by
  rw [extend, splitOn_ampersand, formValues]
  dsimp only
  rw [urlDecode_nil, List.append_nil]

theorem splitOn_append {first rest : Bytes} (h : ∀ b ∈ first, b ≠ ampersand) {pair : Bytes} {pairs : List Bytes}
    (hr : rest.splitOn ampersand = pair :: pairs) : (first ++ rest).splitOn ampersand = (first ++ pair) :: pairs := by
  induction first with
  | nil => exact hr
  | cons b first ih =>
    have hb : ¬(b == ampersand) = true := by
      rw [beq_iff_eq]
      exact h b List.mem_cons_self
    rw [List.cons_append, List.splitOn_cons_eq_if_modifyHead, if_neg hb, ih fun c hc => h c (List.mem_cons_of_mem _ hc)]
    rfl

/-- Bytes that stand for `out` before whatever else the value goes on with. -/
theorem extend_append {first rest out : Bytes} (text : Bytes) (h : ∀ b ∈ first, b ≠ ampersand)
    (hd : ∀ pair : Bytes, (∀ b ∈ pair.head?, b ∈ rest.head?) → urlDecode (first ++ pair) = out ++ urlDecode pair) :
    extend text (first ++ rest) = extend (text ++ out) rest := by
  obtain ⟨pair, pairs, hr⟩ := List.exists_cons_of_ne_nil (List.splitOn_ne_nil ampersand rest)
  have begins : ∀ b ∈ pair.head?, b ∈ rest.head? := by
    rcases rest with _ | ⟨c, rest⟩
    · obtain ⟨rfl, -⟩ := List.cons.inj (hr : [[]] = pair :: pairs)
      exact nofun
    · rw [List.splitOn_cons_eq_if_modifyHead] at hr
      split at hr
      · obtain ⟨rfl, -⟩ := List.cons.inj hr
        exact nofun
      · obtain ⟨pair', pairs', hr'⟩ := List.exists_cons_of_ne_nil (List.splitOn_ne_nil ampersand rest)
        rw [hr'] at hr
        obtain ⟨rfl, -⟩ := List.cons.inj hr
        exact fun b hb => hb
  rw [extend, extend, splitOn_append h hr, hr]
  dsimp only
  rw [hd pair begins, List.append_assoc]

theorem formValues_equals (rest : Bytes) : formValues (equals :: rest) = extend [] rest := by
  obtain ⟨pair, pairs, hr⟩ := List.exists_cons_of_ne_nil (List.splitOn_ne_nil ampersand rest)
  rw [formValues, extend, hr, List.splitOn_cons_eq_if_modifyHead, if_neg (by decide), hr]
  rfl

theorem formValues_cons {b : UInt8} (hb : b ≠ equals) (rest : Bytes) : formValues (b :: rest) = formValues rest := by
  obtain ⟨pair, pairs, hr⟩ := List.exists_cons_of_ne_nil (List.splitOn_ne_nil ampersand rest)
  rw [formValues, formValues, hr, List.splitOn_cons_eq_if_modifyHead, hr]
  split
  · rfl
  · have : pairValue (b :: pair) = pairValue pair := by
      rw [pairValue, pairValue, List.dropWhile_cons_of_pos (by simpa using hb)]
    rw [List.modifyHead_cons, List.filterMap_cons, List.filterMap_cons, this]

namespace Form

/-- The values of a text read as far as `texts`, which goes on with `rest`. -/
def remaining (form : Form) (texts : List Bytes) (rest : Bytes) : List Bytes :=
  match form with
  | .name => texts ++ formValues rest
  | .value => texts.dropLast ++ extend (texts.getLast?.getD []) rest
  | .percent => texts.dropLast ++ extend (texts.getLast?.getD []) (percentSign :: rest)
  | .percentDigit first => texts.dropLast ++ extend (texts.getLast?.getD []) (percentSign :: first :: rest)

/-- `form` and `values` have read a text as far as `texts`; `before` is whether one was found before them. -/
structure Read (form : Form) (values : Levels) (before : Bool) (texts : List Bytes) : Prop where
  shown : values.Shown before texts
  inside : form ≠ .name → texts ≠ []
  digit : ∀ {first : UInt8}, form = .percentDigit first → isHex first

/-- A text that has not begun. -/
theorem read_new (values : Levels) : Read .name values values.found [] := ⟨values.shown_nil, fun h => absurd rfl h, nofun⟩

/-- `form` and `values` read on to `form'` and `values'` as `first` does. -/
def Goes (before : Bool) (form : Form) (texts : List Bytes) (first : Bytes) (next : Form × Levels) : Prop :=
  ∃ texts', Read next.1 next.2 before texts' ∧ ∀ rest, next.1.remaining texts' rest = form.remaining texts (first ++ rest)

theorem remaining_grow (texts : List Bytes) (b : UInt8) (rest : Bytes) :
    remaining .value (grow texts (.byte b)) rest = texts.dropLast ++ extend (texts.getLast?.getD [] ++ [b]) rest := by
  rw [remaining, grow, List.dropLast_concat, List.getLast?_concat]
  rfl

theorem grow_ne_nil (texts : List Bytes) (e : Event) : grow texts e ≠ [] := by
  cases e <;> simp [grow]

theorem valueByte_goes {values : Levels} {before : Bool} {texts : List Bytes} (shown : values.Shown before texts) (ne : texts ≠ [])
    (b : UInt8) : Goes before .value texts [b] (valueByte values b) := by
  have split : texts.dropLast ++ [texts.getLast?.getD []] = texts := by
    rw [List.getLast?_eq_some_getLast ne, Option.getD_some, List.dropLast_append_getLast]
  have single {c : UInt8} (hc : c ≠ ampersand) : ∀ b ∈ [c], b ≠ ampersand := by
    intro b hb
    rw [List.mem_singleton.mp hb]
    exact hc
  unfold valueByte
  by_cases ha : b = ampersand
  · subst ha
    rw [if_pos rfl]
    refine ⟨texts, ⟨shown, fun h => absurd rfl h, nofun⟩, fun rest => ?_⟩
    rw [remaining, remaining, List.singleton_append, extend_ampersand, ← List.singleton_append, ← List.append_assoc, split]
  · rw [if_neg ha]
    by_cases hp : b = percentSign
    · subst hp
      rw [if_pos rfl]
      exact ⟨texts, ⟨shown, fun _ => ne, nofun⟩, fun rest => rfl⟩
    · rw [if_neg hp]
      by_cases hs : b = plus
      · subst hs
        have decode (pair : Bytes) : urlDecode ([plus] ++ pair) = [space] ++ urlDecode pair := urlDecode_plus pair
        rw [if_pos rfl]
        refine ⟨_, ⟨shown.byte ne space, fun _ => grow_ne_nil _ _, nofun⟩, fun rest => ?_⟩
        rw [remaining_grow, remaining, extend_append _ (single ha) fun pair _ => decode pair]
      · have decode (pair : Bytes) : urlDecode ([b] ++ pair) = [b] ++ urlDecode pair := urlDecode_cons hs hp pair
        rw [if_neg hs]
        refine ⟨_, ⟨shown.byte ne b, fun _ => grow_ne_nil _ _, nofun⟩, fun rest => ?_⟩
        rw [remaining_grow, remaining, extend_append _ (single ha) fun pair _ => decode pair]

theorem byte_goes {form : Form} {values : Levels} {before : Bool} {texts : List Bytes} (h : Read form values before texts)
    (b : UInt8) : Goes before form texts [b] (form.byte values b) := by
  cases form with
  | name =>
    unfold byte
    dsimp only
    by_cases hb : b = equals
    · subst hb
      rw [if_pos rfl]
      refine ⟨_, ⟨h.shown.start, fun _ => by simp, nofun⟩, fun rest => ?_⟩
      change (texts ++ [[]]).dropLast ++ extend ((texts ++ [[]]).getLast?.getD []) rest = texts ++ formValues (equals :: rest)
      rw [List.dropLast_concat, List.getLast?_concat, formValues_equals]
      rfl
    · rw [if_neg hb]
      exact ⟨texts, h, fun rest => congrArg (texts ++ ·) (formValues_cons hb rest).symm⟩
  | value => exact valueByte_goes h.shown (h.inside (by simp)) b
  | percent =>
    have ne := h.inside (by simp)
    unfold byte
    dsimp only
    cases hb : isHex b with
    | true =>
      rw [if_pos (show (hex b).isSome = true from hb)]
      refine ⟨texts, ⟨h.shown, fun _ => ne, ?_⟩, fun rest => rfl⟩
      rintro _ ⟨⟩
      exact hb
    | false =>
      rw [if_neg (show ¬(hex b).isSome = true from Bool.eq_false_iff.mp hb)]
      have decode {rest : Bytes} (pair : Bytes) (begins : ∀ c ∈ pair.head?, c ∈ (b :: rest).head?) :
          urlDecode ([percentSign] ++ pair) = [percentSign] ++ urlDecode pair :=
        urlDecode_percent fun c hc => Option.some.inj (begins c hc) ▸ hb
      obtain ⟨texts', read, goes⟩ := valueByte_goes (h.shown.byte ne percentSign) (grow_ne_nil _ _) b
      refine ⟨texts', read, fun rest => (goes rest).trans ?_⟩
      rw [remaining_grow]
      exact congrArg (texts.dropLast ++ ·) (extend_append _ (List.forall_mem_singleton.mpr (by decide))
        fun pair begins => decode pair begins).symm
  | percentDigit first =>
    have ne := h.inside (by simp)
    have hf := h.digit rfl
    have plain : ∀ b ∈ [percentSign, first], b ≠ ampersand := by
      intro b hb
      rcases List.mem_cons.mp hb with rfl | hb
      · decide
      · rw [List.mem_singleton.mp hb]
        exact (hex_plain hf).1
    unfold byte
    dsimp only
    obtain ⟨high, hhigh⟩ := Option.isSome_iff_exists.mp hf
    cases hb : hex b with
    | some low =>
      rw [hhigh]
      refine ⟨_, ⟨h.shown.byte ne _, fun _ => grow_ne_nil _ _, nofun⟩, fun rest => ?_⟩
      have decode (pair : Bytes) : urlDecode ([percentSign, first, b] ++ pair) = [high <<< 4 ||| low] ++ urlDecode pair :=
        urlDecode_digits hhigh hb pair
      have plain : ∀ c ∈ [percentSign, first, b], c ≠ ampersand := by
        intro c hc
        rcases List.mem_append.mp (show c ∈ [percentSign, first] ++ [b] from hc) with hc | hc
        · exact plain c hc
        · rw [List.mem_singleton.mp hc]
          exact (hex_plain (show isHex b by rw [isHex, hb]; rfl)).1
      rw [remaining_grow]
      exact congrArg (texts.dropLast ++ ·) (extend_append _ plain fun pair _ => decode pair).symm
    | none =>
      rw [hhigh]
      have hb : isHex b = false := by rw [isHex, hb]; rfl
      have decode {rest : Bytes} (pair : Bytes) (begins : ∀ c ∈ pair.head?, c ∈ (b :: rest).head?) :
          urlDecode ([percentSign, first] ++ pair) = [percentSign, first] ++ urlDecode pair :=
        urlDecode_digit hf fun c hc => Option.some.inj (begins c hc) ▸ hb
      have shown := (h.shown.byte ne percentSign).byte (grow_ne_nil _ _) first
      obtain ⟨texts', read, goes⟩ := valueByte_goes shown (grow_ne_nil _ _) b
      refine ⟨texts', read, fun rest => (goes rest).trans ?_⟩
      rw [remaining_grow, grow, List.dropLast_concat, List.getLast?_concat, Option.getD_some, List.append_assoc]
      exact congrArg (texts.dropLast ++ ·) (extend_append _ plain fun pair begins => decode pair begins).symm

/-- The end of the text. -/
theorem atEnd_shown {form : Form} {values : Levels} {before : Bool} {texts : List Bytes} (h : Read form values before texts) :
    (form.atEnd values).2.Shown before (form.remaining texts []) := by
  have whole (ne : texts ≠ []) : texts.dropLast ++ [texts.getLast?.getD []] = texts := by
    rw [List.getLast?_eq_some_getLast ne, Option.getD_some, List.dropLast_append_getLast]
  cases form with
  | name =>
    have none : formValues [] = [] := rfl
    rw [remaining, none, List.append_nil]
    exact h.shown
  | value =>
    rw [remaining, extend_nil, whole (h.inside (by simp))]
    exact h.shown
  | percent =>
    have ne := h.inside (by simp)
    have decode (pair : Bytes) (begins : ∀ c ∈ pair.head?, c ∈ ([] : Bytes).head?) :
        urlDecode ([percentSign] ++ pair) = [percentSign] ++ urlDecode pair := urlDecode_percent fun c hc => nomatch begins c hc
    have : extend (texts.getLast?.getD []) [percentSign] = [texts.getLast?.getD [] ++ [percentSign]] :=
      (extend_append _ (List.forall_mem_singleton.mpr (by decide)) decode).trans (extend_nil _)
    rw [remaining, this]
    exact h.shown.byte ne percentSign
  | percentDigit first =>
    have ne := h.inside (by simp)
    have hf := h.digit rfl
    have plain : ∀ b ∈ [percentSign, first], b ≠ ampersand := by
      intro b hb
      rcases List.mem_cons.mp hb with rfl | hb
      · decide
      · rw [List.mem_singleton.mp hb]
        exact (hex_plain hf).1
    have decode (pair : Bytes) (begins : ∀ c ∈ pair.head?, c ∈ ([] : Bytes).head?) :
        urlDecode ([percentSign, first] ++ pair) = [percentSign, first] ++ urlDecode pair :=
      urlDecode_digit hf fun c hc => nomatch begins c hc
    have : extend (texts.getLast?.getD []) [percentSign, first] = [texts.getLast?.getD [] ++ [percentSign, first]] :=
      (extend_append _ plain decode).trans (extend_nil _)
    rw [remaining, this]
    have shown := (h.shown.byte ne percentSign).byte (grow_ne_nil _ _) first
    rwa [grow, grow, List.dropLast_concat, List.getLast?_concat, Option.getD_some, List.append_assoc] at shown

theorem refers_append (levels : Nat) {text : Bytes} (more : Bytes) (h : refers levels text) : refers levels (text ++ more) := by
  induction more generalizing text with
  | nil => rwa [List.append_nil]
  | cons b more ih =>
    rw [List.append_cons]
    exact ih (refers_concat levels b h)

/-- What has been found stays found. -/
theorem remaining_any {form : Form} {values : Levels} {before : Bool} {texts : List Bytes} (h : Read form values before texts)
    (rest : Bytes) (found : texts.any (refers 3)) : (form.remaining texts rest).any (refers 3) := by
  have inside (ne : texts ≠ []) (rest : Bytes) :
      (texts.dropLast ++ extend (texts.getLast?.getD []) rest).any (refers 3) := by
    rw [← List.dropLast_append_getLast ne, List.any_append, Bool.or_eq_true] at found
    rw [List.any_append, Bool.or_eq_true, List.getLast?_eq_some_getLast ne]
    refine found.imp_right fun last => ?_
    rw [List.any_cons, List.any_nil, Bool.or_false] at last
    unfold extend
    split
    · rwa [List.any_cons, List.any_nil, Bool.or_false]
    · rw [List.any_cons, Bool.or_eq_true]
      exact .inl (refers_append 3 _ last)
  cases form with
  | name => rw [remaining, List.any_append, found, Bool.true_or]
  | value => exact inside (h.inside (by simp)) rest
  | percent => exact inside (h.inside (by simp)) (percentSign :: rest)
  | percentDigit first => exact inside (h.inside (by simp)) (percentSign :: first :: rest)

/-- `byte` for each byte of a text. -/
def bytes (form : Form) (values : Levels) (text : Bytes) : Form × Levels :=
  text.foldl (fun read b => read.1.byte read.2 b) (form, values)

theorem bytes_goes (text : Bytes) {form : Form} {values : Levels} {before : Bool} {texts : List Bytes}
    (h : Read form values before texts) : Goes before form texts text (form.bytes values text) := by
  induction text generalizing form values texts with
  | nil => exact ⟨texts, h, fun rest => rfl⟩
  | cons b text ih =>
    obtain ⟨texts', read, goes⟩ := byte_goes h b
    obtain ⟨texts'', read', goes'⟩ := ih read
    exact ⟨texts'', read', fun rest => (goes' rest).trans (goes (text ++ rest))⟩

/-- What is found in a text is found in whatever it goes on with. -/
theorem bytes_found (values : Levels) (text more : Bytes) (h : (bytes .name values text).2.found) :
    (values.found || (formValues (text ++ more)).any (refers 3)) := by
  obtain ⟨texts, read, goes⟩ := bytes_goes text (read_new values)
  rw [read.shown.found, Bool.or_eq_true] at h
  rw [Bool.or_eq_true]
  refine h.imp_right fun found => ?_
  have := remaining_any read more found
  rwa [goes more] at this

/-- A whole text. -/
theorem bytes_atEnd (values : Levels) (text : Bytes) :
    ((bytes .name values text).1.atEnd (bytes .name values text).2).2.found =
      (values.found || (formValues text).any (refers 3)) := by
  obtain ⟨texts, read, goes⟩ := bytes_goes text (read_new values)
  have := (atEnd_shown read).found
  rwa [goes [], List.append_nil] at this

end Form

theorem formScan_eq (rest : Bytes) {form : Form} {values : Levels} {texts : List Bytes} (h : form.Read values false texts)
    (clean : values.found = false) : formScan form values rest = (form.remaining texts rest).any (refers 3) := by
  induction rest generalizing form values texts with
  | nil => rw [formScan, (Form.atEnd_shown h).found, Bool.false_or]
  | cons b rest ih =>
    obtain ⟨texts', read, goes⟩ := Form.byte_goes h b
    have goes : (form.byte values b).1.remaining texts' rest = form.remaining texts (b :: rest) := goes rest
    rw [formScan, ← goes]
    change (if (form.byte values b).2.found then true else formScan (form.byte values b).1 (form.byte values b).2 rest) = _
    cases hf : (form.byte values b).2.found with
    | true =>
      rw [if_pos rfl, Form.remaining_any read rest]
      rwa [read.shown.found, Bool.false_or] at hf
    | false => exact ih read hf

/-- The scan of an urlencoded text finds what reading it pair by pair finds. -/
theorem formHasLocalFile_eq (text : Bytes) : formHasLocalFile text = (formValues text).any (refers 3) :=
  formScan_eq text (Form.read_new .default) rfl

/-- The parameters of an urlencoded text, decoded: pairs split on `&`, the name from the value on the first `=`; a pair
    without one has no value. -/
def formPairs (text : Bytes) : List (Bytes × Option Bytes) :=
  (text.splitOn ampersand).map fun pair => (urlDecode (pair.takeWhile (· ≠ equals)), (pairValue pair).map urlDecode)

/-- The scan of an urlencoded text finds what is in the value of a parameter. -/
theorem formHasLocalFile_pairs (text : Bytes) :
    formHasLocalFile text = (formPairs text).any fun (_, value) => value.any (refers 3) := by
  rw [formHasLocalFile_eq, formValues, formPairs, List.any_filterMap, List.any_map]
  refine congrArg (List.any _) (funext fun pair => ?_)
  change _ = ((pairValue pair).map urlDecode).any (refers 3)
  cases pairValue pair with
  | none => rfl
  | some value => rfl

end Tgin.LocalFiles
