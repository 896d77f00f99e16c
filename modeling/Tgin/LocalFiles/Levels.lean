import Mathlib.Data.List.Induction
import Mathlib.Tactic.Common
import Tgin.LocalFiles

/-! The scan of a JSON body finds what reading it level by level finds: the texts of its strings, the texts of the
    strings of those that are documents, and so on. -/

namespace Tgin.LocalFiles

/-! ### Level by level -/

def isHex (b : UInt8) : Bool := (hex b).isSome

/-- The number hexadecimal digits stand for, after `code`. -/
def number (code : UInt32) (digits : Bytes) : UInt32 :=
  digits.foldl (fun code b => code <<< 4 ||| ((hex b).getD 0).toUInt32) code

/-- What comes after `\u`: four hexadecimal digits for a character; fewer stand for nothing. -/
def unicode (rest : Bytes) : Bytes × Bytes :=
  let digits := (rest.takeWhile isHex).take 4
  (if digits.length = 4 then [Values.decoded (number 0 digits)] else [], rest.drop digits.length)

/-- What comes after a `\`: what the escape stands for, and the rest. -/
def escaped : Bytes → Bytes × Bytes
  | [] => ([], [])
  | e :: rest => if e = letterU then unicode rest else ([unescape e], rest)

/-- The next byte of a string, or its next escape. -/
def unit (b : UInt8) (rest : Bytes) : Bytes × Bytes := if b = backslash then escaped rest else ([b], rest)

theorem unit_length (b : UInt8) (rest : Bytes) : (unit b rest).2.length ≤ rest.length := by
  unfold unit escaped unicode
  split
  · cases rest with
    | nil => exact Nat.le_refl _
    | cons e rest =>
      dsimp only
      split
      · rw [List.length_drop]
        exact Nat.le_trans (Nat.sub_le ..) (Nat.le_succ _)
      · exact Nat.le_succ _
  · exact Nat.le_refl _

/-- The text of a string literal, from after its opening quote on, and what comes after the literal. -/
def literal : Bytes → Bytes × Bytes
  | [] => ([], [])
  | b :: rest =>
    if b = quote then ([], rest)
    else ((unit b rest).1 ++ (literal (unit b rest).2).1, (literal (unit b rest).2).2)
  termination_by body => body.length
  decreasing_by all_goals exact Nat.lt_succ_of_le (unit_length b rest)

theorem literal_length (body : Bytes) : (literal body).2.length ≤ body.length := by
  induction body using literal.induct with
  | case1 => simp [literal]
  | case2 rest => simp [literal]
  | case3 b rest hb ih =>
    rw [literal, if_neg hb]
    exact Nat.le_trans (Nat.le_trans ih (unit_length b rest)) (Nat.le_succ _)

/-- The texts of the string literals of a document, well-formed or not. -/
def literals : Bytes → List Bytes
  | [] => []
  | b :: rest =>
    if b = quote then (literal rest).1 :: literals (literal rest).2
    else literals rest
  termination_by body => body.length
  decreasing_by
    · exact Nat.lt_succ_of_le (literal_length rest)
    · exact Nat.lt_succ_self _

/-- Whether the first character that is no whitespace opens a document. -/
def opens (text : Bytes) : Bool := (text.dropWhile isSpace).head?.any fun b => b = bracket || b = brace

/-- Whether a text is a local file reference or a document that carries one, documents being followed `levels` deep and
    one found deeper counting as one. -/
def refers : Nat → Bytes → Bool
  | 0, text => LOCAL_PREFIX.isPrefixOf text || opens text
  | levels + 1, text => LOCAL_PREFIX.isPrefixOf text || opens text && (literals text).any (refers levels)

/-! ### One level -/

/-- What a document's next byte means for the value one level deeper. -/
inductive Event where
  | start
  | byte (b : UInt8)

/-- The texts of the values so far, the last one perhaps unfinished. -/
def grow (texts : List Bytes) : Event → List Bytes
  | .start => texts ++ [[]]
  | .byte b => texts.dropLast ++ [texts.getLast?.getD [] ++ [b]]

/-- A document's scan, without the deeper levels. -/
def Json.step (b : UInt8) : Json → Json × Option Event
  | .outside => if b = quote then (.text, some .start) else (.outside, none)
  | .text => textStep b
  | .escape => if b = letterU then (.unicode 0 0, none) else (.text, some (.byte (unescape b)))
  | .unicode digits code =>
    match hex b with
    | some digit =>
      let code := code <<< 4 ||| digit.toUInt32
      if digits < 3 then (.unicode (digits + 1) code, none) else (.text, some (.byte (Values.decoded code)))
    | none => textStep b
where
  textStep (b : UInt8) : Json × Option Event :=
    if b = quote then (.outside, none) else if b = backslash then (.escape, none) else (.text, some (.byte b))

/-- What a document has shown: where its scan is and the texts of its strings, the last one perhaps unfinished. -/
structure Doc where
  state : Json
  texts : List Bytes

namespace Doc

def new : Doc := { state := .outside, texts := [] }

/-- The text of the last string. -/
def last (doc : Doc) : Bytes := doc.texts.getLast?.getD []

def take (doc : Doc) : Option Event → List Bytes
  | none => doc.texts
  | some e => grow doc.texts e

def step (doc : Doc) (b : UInt8) : Doc where
  state := (doc.state.step b).1
  texts := doc.take (doc.state.step b).2

def read (doc : Doc) (body : Bytes) : Doc := body.foldl step doc

theorem read_concat (doc : Doc) (body : Bytes) (b : UInt8) : doc.read (body ++ [b]) = (doc.read body).step b :=
  List.foldl_concat ..

/-- A document in the middle of a string. -/
def within (state : Json) (texts : List Bytes) (text : Bytes) : Doc := { state, texts := texts ++ [text] }

theorem step_byte {state : Json} {b c : UInt8} (h : state.step b = (.text, some (.byte c))) (texts : List Bytes) (text : Bytes) :
    (within state texts text).step b = within .text texts (text ++ [c]) := by
  simp only [within, step, h, take, grow, List.getLast?_concat, Option.getD_some, List.dropLast_concat]

theorem step_none {state state' : Json} {b : UInt8} (h : state.step b = (state', none)) (texts : List Bytes) (text : Bytes) :
    (within state texts text).step b = within state' texts text := by
  simp only [within, step, h, take]

/-- The digits after `\u` and what they stand for. -/
theorem read_unicode (texts : List Bytes) (text rest : Bytes) : ∀ (digits : Nat) (code : UInt32), digits < 4 →
    let read := (rest.takeWhile isHex).take (4 - digits)
    ((within (.unicode digits code) texts text).read rest).texts =
      ((within .text texts (text ++ if read.length = 4 - digits then [Values.decoded (number code read)] else [])).read
        (rest.drop read.length)).texts := by
  induction rest with
  | nil =>
    intro digits code hd
    have none : 0 ≠ 4 - digits := Nat.ne_of_lt (Nat.sub_pos_of_lt hd)
    simp [Doc.read, within, none]
  | cons b rest ih =>
    intro digits code hd
    obtain ⟨left, hleft⟩ : ∃ left, 4 - digits = left + 1 := ⟨3 - digits, by omega⟩
    rw [hleft]
    cases hb : hex b with
    | none =>
      have stop : (b :: rest).takeWhile isHex = [] := by simp [isHex, hb]
      simp only [stop, List.take_nil, List.length_nil, List.drop_zero]
      rw [if_neg (Nat.succ_ne_zero left).symm, List.append_nil]
      have same : (within (.unicode digits code) texts text).step b = (within .text texts text).step b := by
        simp only [step, within, Json.step, hb]
        rfl
      simp only [Doc.read, List.foldl_cons, same]
    | some digit =>
      have go : (b :: rest).takeWhile isHex = b :: rest.takeWhile isHex := by simp [isHex, hb]
      simp only [go, List.take_succ_cons, List.length_cons, List.drop_succ_cons, Nat.add_right_cancel_iff]
      have first (tail : Bytes) : number code (b :: tail) = number (code <<< 4 ||| digit.toUInt32) tail := by
        simp only [number, List.foldl_cons, hb, Option.getD_some]
      by_cases more : digits < 3
      · have next : (Json.unicode digits code).step b = (.unicode (digits + 1) (code <<< 4 ||| digit.toUInt32), none) := by
          simp only [Json.step, hb, if_pos more]
        have step := step_none next texts text
        have ih := ih (digits + 1) (code <<< 4 ||| digit.toUInt32) (by omega)
        rw [show 4 - (digits + 1) = left by omega] at ih
        simp only [Doc.read, List.foldl_cons, step, first] at ih ⊢
        exact ih
      · obtain rfl : left = 0 := by omega
        have last : (Json.unicode digits code).step b =
            (.text, some (.byte (Values.decoded (code <<< 4 ||| digit.toUInt32)))) := by
          simp only [Json.step, hb, if_neg more]
        have step := step_byte last texts text
        simp only [Doc.read, List.foldl_cons, step, List.take_zero, List.length_nil, List.drop_zero, if_true, first]
        rfl

/-- A byte or an escape of a string. -/
theorem read_unit (texts : List Bytes) (text : Bytes) {b : UInt8} (hb : b ≠ quote) (rest : Bytes) :
    ((within .text texts text).read (b :: rest)).texts =
      ((within .text texts (text ++ (unit b rest).1)).read (unit b rest).2).texts := by
  have begins (rest : Bytes) (doc : Doc) : (doc.read (b :: rest)).texts = ((doc.step b).read rest).texts := rfl
  unfold unit
  by_cases escape : b = backslash
  · subst escape
    have step := step_none (show Json.text.step backslash = (.escape, none) from rfl) texts text
    rw [if_pos rfl, begins, step]
    cases rest with
    | nil => simp [escaped, Doc.read, within]
    | cons e rest =>
      rw [escaped]
      by_cases he : e = letterU
      · subst he
        rw [if_pos rfl, unicode]
        exact read_unicode texts text rest 0 0 (by decide)
      · have step := step_byte (show Json.escape.step e = (.text, some (.byte (unescape e))) from if_neg he) texts text
        rw [if_neg he, ← step]
        rfl
  · have text' : Json.text.step b = (.text, some (.byte b)) := by
      simp only [Json.step, Json.step.textStep, if_neg hb, if_neg escape]
    rw [if_neg escape, ← step_byte text' texts text]
    rfl

theorem read_literal (rest : Bytes) (texts : List Bytes) (text : Bytes) :
    ((within .text texts text).read rest).texts =
      ((within .outside texts (text ++ (literal rest).1)).read (literal rest).2).texts := by
  induction rest using literal.induct generalizing text with
  | case1 => simp [literal, read, within]
  | case2 rest =>
    rw [literal, if_pos rfl, List.append_nil]
    rfl
  | case3 b rest hb ih =>
    rw [literal, if_neg hb, read_unit texts text hb, ih, List.append_assoc]

/-- Reading byte by byte gives the literals. -/
theorem read_texts (body : Bytes) (texts : List Bytes) :
    (read { state := .outside, texts } body).texts = texts ++ literals body := by
  induction body using literals.induct generalizing texts with
  | case1 => simp [literals, read]
  | case2 rest ih =>
    rw [literals, if_pos rfl]
    refine (read_literal rest texts []).trans ?_
    rw [within, ih, List.nil_append, List.append_assoc, List.singleton_append]
  | case3 b rest hb ih =>
    rw [literals, if_neg hb]
    refine Eq.trans ?_ (ih texts)
    simp only [read, List.foldl_cons, step, Json.step, if_neg hb, take]

end Doc

/-! ### The levels together -/

namespace Values

/-- The levels are all there, and no document is read at the last. -/
structure Bounded (v : Values) : Prop where
  value : v.value.length = MAX_DEPTH
  json : v.json.length = MAX_DEPTH
  last : ∀ {depth : Nat} {value : Value}, v.value[depth]? = some value → value.shape = .json → depth + 1 < MAX_DEPTH

theorem bounded_default : default.Bounded where
  value := rfl
  json := rfl
  last {depth value} h hs := by
    rw [default, List.getElem?_replicate] at h
    split at h <;> cases h
    cases hs

/-- The levels above `depth` are the same. -/
def Above (depth : Nat) (v v' : Values) : Prop :=
  ∀ d < depth, v'.value[d]? = v.value[d]? ∧ v'.json[d]? = v.json[d]?

theorem Above.refl (depth : Nat) (v : Values) : Above depth v v := fun _ _ => ⟨rfl, rfl⟩

theorem Above.trans {depth : Nat} {v v' v'' : Values} (h : Above depth v v') (h' : Above depth v' v'') : Above depth v v'' :=
  fun d hd => ⟨(h' d hd).1.trans (h d hd).1, (h' d hd).2.trans (h d hd).2⟩

theorem Above.mono {depth depth' : Nat} {v v' : Values} (h : Above depth v v') (hd : depth' ≤ depth) : Above depth' v v' :=
  fun d lt => h d (Nat.lt_of_lt_of_le lt hd)

section
variable {v : Values} {depth : Nat}

theorem Bounded.setJson (h : v.Bounded) (hd : depth < MAX_DEPTH) (json : Json) :
    v.setJson depth json = some { v with json := v.json.set depth json } ∧
      Bounded { v with json := v.json.set depth json } := by
  refine ⟨if_pos (h.json ▸ hd), h.value, ?_, h.last⟩
  rw [List.length_set]
  exact h.json

theorem Bounded.setValue (h : v.Bounded) (hd : depth < MAX_DEPTH) {value : Value}
    (last : value.shape = .json → depth + 1 < MAX_DEPTH) :
    v.setValue depth value = some { v with value := v.value.set depth value } ∧
      Bounded { v with value := v.value.set depth value } := by
  refine ⟨if_pos (h.value ▸ hd), ?_, h.json, fun {d value'} hv hs => ?_⟩
  · rw [List.length_set]
    exact h.value
  · rw [List.getElem?_set] at hv
    split at hv
    · rename_i here
      subst here
      split at hv <;> cases hv
      exact last hs
    · exact h.last hv hs

theorem Bounded.found (h : v.Bounded) (found : Bool) : Bounded { v with found } := ⟨h.value, h.json, h.last⟩

theorem Bounded.withValue (h : v.Bounded) (hd : depth < MAX_DEPTH) {value : Value}
    (last : value.shape = .json → depth + 1 < MAX_DEPTH) (found : Bool) :
    Bounded { v with value := v.value.set depth value, found } :=
  ((h.found found).setValue hd last).2

theorem above_setJson (v : Values) (depth : Nat) (json : Json) : Above depth v { v with json := v.json.set depth json } :=
  fun _ hd => ⟨rfl, List.getElem?_set_ne (Nat.ne_of_gt hd)⟩

theorem above_setValue (v : Values) (depth : Nat) (value : Value) : Above depth v { v with value := v.value.set depth value } :=
  fun _ hd => ⟨List.getElem?_set_ne (Nat.ne_of_gt hd), rfl⟩

theorem Bounded.start (h : v.Bounded) (hd : depth < MAX_DEPTH) :
    ∃ v', v.start depth = some v' ∧ v'.Bounded ∧ Above depth v v' ∧ v'.found = v.found ∧
      v'.value[depth]? = some .default ∧ v'.json[depth]? = some .outside := by
  have flat : Value.default.shape = .json → depth + 1 < MAX_DEPTH := nofun
  obtain ⟨hv, b⟩ := h.setValue hd flat
  obtain ⟨hj, b'⟩ := b.setJson hd .outside
  refine ⟨_, ?_, b', (above_setValue v depth .default).trans (above_setJson _ depth .outside), rfl, ?_, ?_⟩
  · rw [Values.start, hv]
    exact hj
  · exact List.getElem?_set_self (h.value ▸ hd)
  · exact List.getElem?_set_self (h.json ▸ hd)

/-- What the next byte of a document does, level by level. -/
theorem jsonByteWith_eq {byte : UInt8 → Values → Option Values} {state : Json} (h : v.json[depth]? = some state) (b : UInt8) :
    jsonByteWith byte depth b v =
      let v' := { v with json := v.json.set depth (state.step b).1 }
      match (state.step b).2 with
      | none => some v'
      | some .start => v'.start (depth + 1)
      | some (.byte c) => byte c v' := by
  have set (v : Values) (hd : depth < v.json.length) (json : Json) :
      v.setJson depth json = some { v with json := v.json.set depth json } := if_pos hd
  have text (v : Values) (hd : depth < v.json.length) (here : v.json.set depth .text = v.json) :
      jsonText byte depth b v =
        match (Json.step.textStep b).2 with
        | none => some { v with json := v.json.set depth (Json.step.textStep b).1 }
        | some .start => Values.start { v with json := v.json.set depth (Json.step.textStep b).1 } (depth + 1)
        | some (.byte c) => byte c { v with json := v.json.set depth (Json.step.textStep b).1 } := by
    unfold jsonText Json.step.textStep
    by_cases hq : b = quote
    · simp only [if_pos hq, set v hd]
    · by_cases hb : b = backslash
      · simp only [if_neg hq, if_pos hb, set v hd]
      · simp only [if_neg hq, if_neg hb, here]
  obtain ⟨hd, hs⟩ := List.getElem?_eq_some_iff.mp h
  have here : v.json.set depth state = v.json := hs ▸ List.set_getElem_self hd
  rw [jsonByteWith, h]
  cases state with
  | outside =>
    by_cases hq : b = quote
    · simp [Json.step, hq, set v hd]
    · simp [Json.step, hq, here]
  | text => exact text v hd here
  | escape =>
    by_cases hu : b = letterU
    · simp [Json.step, hu, set v hd]
    · simp [Json.step, hu, set v hd]
  | unicode digits code =>
    cases hb : hex b with
    | some digit =>
      by_cases more : digits < 3
      · simp [Json.step, hb, more, set v hd]
      · simp [Json.step, hb, more, set v hd]
    | none =>
      have text := text { v with json := v.json.set depth .text } (by rwa [List.length_set]) (List.set_set ..)
      simp only [List.set_set] at text
      simp only [Json.step, hb, set v hd]
      exact text

/-- Whether a byte opens a document. -/
def opening (b : UInt8) : Bool := b = bracket || b = brace

end

end Values

/-- The shape of a value after its next byte; `last` is whether it is of the last level. -/
def Shape.next (last : Bool) (b : UInt8) : Shape → Shape
  | .plain => .plain
  | .json => .json
  | .leading => if isSpace b then .leading else if Values.opening b && !last then .json else .plain

/-- Whether a byte opens a document in a value of the last level. -/
def Shape.refused (last : Bool) (b : UInt8) : Shape → Bool
  | .plain | .json => false
  | .leading => !isSpace b && Values.opening b && last

/-- No document is read at the last level. -/
theorem Shape.next_last {shape : Shape} (h : shape ≠ .json) (b : UInt8) : shape.next true b ≠ .json := by
  cases shape with
  | json => exact absurd rfl h
  | plain => exact h
  | leading =>
    rw [Shape.next]
    split <;> simp

theorem Value.begins_shape (value : Value) (b : UInt8) : (value.begins b).1.shape = value.shape := by
  unfold Value.begins
  split
  · rfl
  · split <;> rfl

namespace Values

/-- What the next byte of a value does: it goes to the value's own fields and, in a document, to its scan. -/
theorem byteAt_eq {v : Values} {depth : Nat} {value : Value} (h : v.value[depth]? = some value) (levels : Nat) (b : UInt8) :
    byteAt (levels + 1) depth b v =
      let last := decide (MAX_DEPTH ≤ depth + 1)
      let shape := value.shape.next last b
      let v' : Values := { v with
        value := v.value.set depth { (value.begins b).1 with shape }
        found := v.found || (value.begins b).2 || value.shape.refused last b }
      if shape = .json then jsonByteWith (byteAt levels (depth + 1)) depth b v' else some v' := by
  have hd : depth < v.value.length := (List.getElem?_eq_some_iff.mp h).1
  have set (v : Values) (hd : depth < v.value.length) (value : Value) :
      v.setValue depth value = some { v with value := v.value.set depth value } := if_pos hd
  have hs := value.begins_shape b
  simp only [byteAt, h, Option.bind_eq_bind, Option.bind_some]
  generalize value.begins b = begun at hs ⊢
  obtain ⟨value', found⟩ := begun
  dsimp only at hs ⊢
  have same (shape : Shape) (hshape : value.shape = shape) : ({ value' with shape } : Value) = value' := by rw [← hshape, ← hs]
  rw [set { v with found := v.found || found } hd, Option.bind_some, hs]
  have again (found : Bool) (value'' : Value) :
      Values.setValue { v with value := v.value.set depth value', found } depth value'' =
        some { v with value := v.value.set depth value'', found } := by
    rw [set { v with value := v.value.set depth value', found } (by rwa [List.length_set]), List.set_set]
  cases hshape : value.shape with
  | plain => simp [Shape.next, Shape.refused, same _ hshape]
  | json => simp [Shape.next, Shape.refused, same _ hshape]
  | leading =>
    by_cases space : isSpace b
    · simp [Shape.next, Shape.refused, space, same _ hshape]
    · by_cases opens : b = bracket ∨ b = brace
      · by_cases deeper : depth + 1 < MAX_DEPTH
        · have last : ¬MAX_DEPTH ≤ depth + 1 := Nat.not_le.mpr deeper
          simp [Shape.next, Shape.refused, opening, space, opens, deeper, last, again]
        · have last : MAX_DEPTH ≤ depth + 1 := Nat.le_of_not_lt deeper
          simp [Shape.next, Shape.refused, opening, space, opens, deeper, last, again]
      · simp [Shape.next, Shape.refused, opening, space, opens, again]

end Values

/-! ### The beginning of a value -/

/-- How many bytes of the prefix a text has matched. -/
def Begun (matched : Nat) (text : Bytes) : Prop :=
  if LOCAL_PREFIX <+: text then matched = LOCAL_PREFIX.length
  else if text <+: LOCAL_PREFIX then matched = text.length
  else matched = 255

theorem begins_begun {value : Value} {text : Bytes} (h : Begun value.matched text) (b : UInt8) :
    Begun (value.begins b).1.matched (text ++ [b]) ∧
      ((value.begins b).2 = true ↔ LOCAL_PREFIX <+: text ++ [b] ∧ ¬LOCAL_PREFIX <+: text) := by
  unfold Begun at h ⊢
  unfold Value.begins
  by_cases whole : LOCAL_PREFIX <+: text
  · rw [if_pos whole] at h
    rw [if_pos (List.prefix_append_of_prefix whole), List.getElem?_eq_none (Nat.le_of_eq h.symm)]
    exact ⟨h, by simp [whole]⟩
  · rw [if_neg whole] at h
    by_cases begun : text <+: LOCAL_PREFIX
    · rw [if_pos begun] at h
      obtain ⟨tail, htail⟩ := begun
      rcases tail with _ | ⟨e, tail⟩
      · rw [List.append_nil] at htail
        exact absurd (htail ▸ List.prefix_rfl) whole
      · have next : LOCAL_PREFIX[value.matched]? = some e := by rw [h, ← htail]; simp
        have all : LOCAL_PREFIX <+: text ++ [b] ↔ b = e ∧ tail = [] := by
          rw [← htail, List.prefix_append_right_inj]
          simp [eq_comm]
        have more : text ++ [b] <+: LOCAL_PREFIX ↔ b = e := by
          rw [← htail, List.prefix_append_right_inj]
          simp
        have length : LOCAL_PREFIX.length = text.length + 1 + tail.length := by rw [← htail]; simp; omega
        simp only [next, all, more, whole, not_false_eq_true, and_true]
        by_cases hb : b = e
        · rw [if_pos hb]
          rcases tail with _ | ⟨e', tail⟩
          · simp [hb, h, length]
          · have : text.length + 1 ≠ LOCAL_PREFIX.length := by rw [length]; simp
            simp [hb, h, this]
        · simp [hb]
    · rw [if_neg begun] at h
      have all : ¬LOCAL_PREFIX <+: text ++ [b] := by
        rw [List.prefix_concat_iff]
        rintro (heq | hp)
        · exact begun (heq ▸ List.prefix_append ..)
        · exact whole hp
      have more : ¬text ++ [b] <+: LOCAL_PREFIX := fun hp => begun ((List.prefix_append ..).trans hp)
      have past : LOCAL_PREFIX[value.matched]? = none := by rw [h]; rfl
      rw [past, if_neg all, if_neg more]
      exact ⟨h, by simp [all]⟩

/-! ### Every byte -/

theorem opens_concat (text : Bytes) (b : UInt8) :
    opens (text ++ [b]) = (opens text || text.all isSpace && !isSpace b && Values.opening b) := by
  induction text with
  | nil => by_cases hb : isSpace b <;> simp [opens, hb, Values.opening]
  | cons c text ih =>
    by_cases hc : isSpace c
    · simpa [opens, hc] using ih
    · simp [opens, hc]

theorem all_isSpace_concat (text : Bytes) (b : UInt8) : (text ++ [b]).all isSpace = (text.all isSpace && isSpace b) := by
  simp

/-- Whitespace opens nothing. -/
theorem opens_of_spaces {text : Bytes} (spaces : text.all isSpace) : opens text = false := by
  have none : text.dropWhile isSpace = [] := by
    induction text with
    | nil => rfl
    | cons c text ih =>
      rw [List.all_cons, Bool.and_eq_true] at spaces
      rw [List.dropWhile_cons_of_pos spaces.1, ih spaces.2]
  rw [opens, none]
  rfl

/-- The shape of a value; `last` is whether it is of the last level. -/
def shapeOf (last : Bool) (text : Bytes) : Shape :=
  if text.all isSpace then .leading else if opens text && !last then .json else .plain

theorem shapeOf_next (last : Bool) (text : Bytes) (b : UInt8) :
    (shapeOf last text).next last b = shapeOf last (text ++ [b]) := by
  rw [shapeOf, shapeOf, opens_concat, all_isSpace_concat]
  cases spaces : text.all isSpace with
  | true =>
    rw [opens_of_spaces spaces]
    cases space : isSpace b <;> simp [Shape.next, space]
  | false => cases opens text <;> cases last <;> simp [Shape.next]

theorem shapeOf_refused (last : Bool) (text : Bytes) (b : UInt8) :
    (shapeOf last text).refused last b = (last && text.all isSpace && !isSpace b && Values.opening b) := by
  rw [shapeOf]
  cases spaces : text.all isSpace with
  | true => cases last <;> simp [Shape.refused]
  | false => cases opens text <;> cases last <;> simp [Shape.refused]

/-- A value that opens a document is read as one. -/
theorem shapeOf_eq_json (text : Bytes) : shapeOf false text = .json ↔ opens text = true := by
  rw [shapeOf]
  cases spaces : text.all isSpace with
  | true => simp [opens_of_spaces spaces]
  | false => cases opens text <;> simp

theorem opens_of_concat {text : Bytes} {b : UInt8} (h : opens (text ++ [b]) = false) : opens text = false := by
  rw [opens_concat, Bool.or_eq_false_iff] at h
  exact h.1

/-- A document opens where there was whitespace. -/
theorem spaces_of_opens {text : Bytes} {b : UInt8} (h : opens (text ++ [b]) = true) (closed : opens text = false) :
    text.all isSpace = true := by
  rw [opens_concat, closed, Bool.false_or, Bool.and_assoc, Bool.and_eq_true] at h
  exact h.1

theorem begins_found {value : Value} {text : Bytes} (h : Begun value.matched text) (b : UInt8) :
    (value.begins b).2 = (LOCAL_PREFIX.isPrefixOf (text ++ [b]) && !LOCAL_PREFIX.isPrefixOf text) := by
  rw [Bool.eq_iff_iff, (begins_begun h b).2, Bool.and_eq_true, Bool.not_eq_true', ← Bool.not_eq_true, List.isPrefixOf_iff_prefix,
    List.isPrefixOf_iff_prefix]

/-- What begins with the prefix is found once. -/
theorem or_found {f p p' : Bool} (hp : p = true → f = true) : (f || (p' && !p)) = (f || p') := by
  cases f with
  | true => rfl
  | false =>
    obtain rfl : p = false := Bool.eq_false_iff.mpr fun h => nomatch hp h
    exact Bool.and_true p'

theorem or_of_imp {a b : Bool} (h : b = true → a = true) : (a || b) = a := by
  cases b with
  | false => exact Bool.or_false a
  | true => rw [h rfl]; rfl

theorem refers_nil (levels : Nat) : refers levels [] = false := by
  cases levels <;> rfl

namespace Doc

/-- The texts of the strings read so far. -/
theorem texts_new (body : Bytes) : (new.read body).texts = literals body := read_texts body []

theorem take_ne_nil (doc : Doc) (e : Event) : doc.take (some e) ≠ [] := by
  cases e <;> simp [take, grow]

/-- A document whose scan is in a string has a string. -/
theorem texts_ne_nil (body : Bytes) (inside : (new.read body).state ≠ .outside) : (new.read body).texts ≠ [] := by
  induction body using List.reverseRecOn with
  | nil => exact absurd rfl inside
  | append_singleton body b ih =>
    rw [read_concat] at inside ⊢
    change ((new.read body).state.step b).1 ≠ .outside at inside
    change (new.read body).take ((new.read body).state.step b).2 ≠ []
    cases he : ((new.read body).state.step b).2 with
    | some e => exact take_ne_nil _ e
    | none =>
      refine ih fun outside => ?_
      rw [outside, Json.step] at he inside
      split at he
      · cases he
      · rename_i hb
        exact inside (by rw [if_neg hb])

/-- A byte of a string comes within a string. -/
theorem texts_ne_nil_of_byte {body : Bytes} {b c : UInt8} (h : ((new.read body).state.step b).2 = some (.byte c)) :
    (new.read body).texts ≠ [] := by
  refine texts_ne_nil body fun outside => ?_
  rw [outside, Json.step] at h
  split at h <;> cases h

/-- Whitespace is outside of every string. -/
theorem read_spaces {text : Bytes} (spaces : text.all isSpace) : new.read text = new := by
  induction text using List.reverseRecOn with
  | nil => rfl
  | append_singleton text b ih =>
    rw [List.all_append, Bool.and_eq_true] at spaces
    have hb : b ≠ quote := by
      rintro rfl
      exact absurd spaces.2 (by decide)
    rw [read_concat, ih spaces.1]
    simp only [step, new, Json.step, if_neg hb, take]

end Doc

namespace Values

/-- The value at `depth` has been read as far as `text`, and so have the values that it carries. -/
def Reads (v : Values) : Nat → Nat → Bytes → Prop
  | 0, depth, text => ∃ value, v.value[depth]? = some value ∧ Begun value.matched text ∧ value.shape = shapeOf true text
  | levels + 1, depth, text => ∃ value, v.value[depth]? = some value ∧ Begun value.matched text ∧
      value.shape = shapeOf false text ∧
      (opens text = false → v.json[depth]? = some .outside) ∧
      (opens text → v.json[depth]? = some (Doc.new.read text).state ∧
        ((Doc.new.read text).texts ≠ [] → Reads v levels (depth + 1) (Doc.new.read text).last))

/-- The document in the value at `depth` has been read as far as `text`. -/
def ReadsDoc (v : Values) (levels depth : Nat) (text : Bytes) : Prop :=
  v.json[depth]? = some (Doc.new.read text).state ∧
    ((Doc.new.read text).texts ≠ [] → Reads v levels (depth + 1) (Doc.new.read text).last)

/-- A value is what its own level and those below are. -/
theorem reads_congr {v v' : Values} {levels depth : Nat} {text : Bytes}
    (same : ∀ d, depth ≤ d → v'.value[d]? = v.value[d]? ∧ v'.json[d]? = v.json[d]?) (h : v.Reads levels depth text) :
    v'.Reads levels depth text := by
  induction levels generalizing depth text with
  | zero =>
    obtain ⟨value, hv, h⟩ := h
    exact ⟨value, (same depth (Nat.le_refl _)).1.trans hv, h⟩
  | succ levels ih =>
    obtain ⟨value, hv, begun, shape, outside, doc⟩ := h
    have here := same depth (Nat.le_refl _)
    refine ⟨value, here.1.trans hv, begun, shape, fun ho => here.2.trans (outside ho), fun ho => ?_⟩
    exact ⟨here.2.trans (doc ho).1, fun ht => ih (fun d hd => same d (Nat.le_of_succ_le hd)) ((doc ho).2 ht)⟩

/-- A value that has just begun. -/
theorem reads_nil {v : Values} {levels depth : Nat} (hv : v.value[depth]? = some .default) (hj : v.json[depth]? = some .outside) :
    v.Reads levels depth [] := by
  have begun : Begun Value.default.matched [] := rfl
  cases levels with
  | zero => exact ⟨_, hv, begun, rfl⟩
  | succ levels => exact ⟨_, hv, begun, rfl, fun _ => hj, nofun⟩

/-- What the next byte of the value at `depth` does. -/
def ByteReads (levels depth : Nat) : Prop :=
  ∀ (b : UInt8) {v : Values}, v.Bounded → ∃ v', byteAt (levels + 1) depth b v = some v' ∧ v'.Bounded ∧ Above depth v v' ∧
    ∀ text, v.Reads levels depth text → (refers levels text → v.found) →
      v'.Reads levels depth (text ++ [b]) ∧ v'.found = (v.found || refers levels (text ++ [b]))

/-- The next byte of a document, if the next byte of a value one level deeper is read. -/
theorem jsonByteWith_reads {levels depth : Nat} (room : depth + 1 < MAX_DEPTH) (inner : ByteReads levels (depth + 1))
    (b : UInt8) {v : Values} (bounded : v.Bounded) :
    ∃ v', jsonByteWith (byteAt (levels + 1) (depth + 1)) depth b v = some v' ∧ v'.Bounded ∧ Above depth v v' ∧
      v'.value[depth]? = v.value[depth]? ∧
      ∀ text, v.ReadsDoc levels depth text → ((literals text).any (refers levels) → v.found) →
        v'.ReadsDoc levels depth (text ++ [b]) ∧ v'.found = (v.found || (literals (text ++ [b])).any (refers levels)) := by
  have hd : depth < v.json.length := by
    rw [bounded.json]
    exact Nat.lt_of_succ_lt room
  obtain ⟨state, hstate⟩ : ∃ state, v.json[depth]? = some state := ⟨_, List.getElem?_eq_getElem hd⟩
  rw [jsonByteWith_eq hstate]
  have set := (bounded.setJson (Nat.lt_of_succ_lt room) (state.step b).1).2
  have above := above_setJson v depth (state.step b).1
  have here : (v.json.set depth (state.step b).1)[depth]? = some (state.step b).1 := List.getElem?_set_self hd
  have below (d : Nat) (hd : depth + 1 ≤ d) : (v.json.set depth (state.step b).1)[d]? = v.json[d]? :=
    List.getElem?_set_ne (Nat.ne_of_lt hd)
  -- What the document has shown then.
  have next {text : Bytes} (h : v.ReadsDoc levels depth text) :
      (Doc.new.read (text ++ [b])).state = (state.step b).1 ∧
        literals (text ++ [b]) = (Doc.new.read text).take (state.step b).2 ∧
        (Doc.new.read (text ++ [b])).texts = (Doc.new.read text).take (state.step b).2 := by
    obtain rfl : state = (Doc.new.read text).state := Option.some.inj (hstate.symm.trans h.1)
    rw [← Doc.texts_new, Doc.read_concat]
    exact ⟨rfl, rfl, rfl⟩
  dsimp only
  rcases he : (state.step b).2 with _ | (_ | c)
  · refine ⟨_, rfl, set, above, rfl, fun text h sound => ?_⟩
    obtain ⟨hs, hl, ht⟩ := next h
    rw [he] at hl ht
    refine ⟨⟨here.trans (congrArg some hs.symm), fun ne => ?_⟩, ?_⟩
    · rw [Doc.last, ht]
      rw [ht] at ne
      exact reads_congr (v := v) (fun d hd => ⟨rfl, below d hd⟩) (h.2 ne)
    · rw [hl, Doc.take, Doc.texts_new, or_of_imp sound]
  · obtain ⟨v', hstart, bounded', above', found, value, json⟩ := set.start room
    refine ⟨v', hstart, bounded', above.trans (above'.mono (Nat.le_succ _)), (above' depth (Nat.lt_succ_self _)).1,
      fun text h sound => ?_⟩
    obtain ⟨hs, hl, ht⟩ := next h
    rw [he] at hl ht
    refine ⟨⟨?_, fun _ => ?_⟩, ?_⟩
    · rw [(above' depth (Nat.lt_succ_self _)).2, hs]
      exact here
    · rw [Doc.last, ht, Doc.take, grow, List.getLast?_concat]
      exact reads_nil value json
    · rw [hl, Doc.take, grow, Doc.texts_new, List.any_append, List.any_cons, List.any_nil, refers_nil, Bool.or_false, Bool.or_false, found,
        or_of_imp sound]
  · obtain ⟨v', hbyte, bounded', above', reads⟩ := inner c set
    refine ⟨v', hbyte, bounded', above.trans (above'.mono (Nat.le_succ _)), (above' depth (Nat.lt_succ_self _)).1,
      fun text h sound => ?_⟩
    obtain ⟨hs, hl, ht⟩ := next h
    have ne : (Doc.new.read text).texts ≠ [] := by
      refine Doc.texts_ne_nil_of_byte (b := b) (c := c) ?_
      rw [← he, Option.some.inj (hstate.symm.trans h.1)]
    rw [he] at hl ht
    have split : literals text = (literals text).dropLast ++ [(Doc.new.read text).last] := by
      rw [← Doc.texts_new, Doc.last, List.getLast?_eq_some_getLast ne, Option.getD_some, List.dropLast_append_getLast]
    have any : (literals text).any (refers levels) =
        ((literals text).dropLast.any (refers levels) || refers levels (Doc.new.read text).last) := by
      conv_lhs => rw [split, List.any_append, List.any_cons, List.any_nil, Bool.or_false]
    have sound' : refers levels (Doc.new.read text).last → v.found := fun hr => sound (by rw [any, hr, Bool.or_true])
    obtain ⟨reads, found⟩ := reads _ (reads_congr (v := v) (fun d hd => ⟨rfl, below d hd⟩) (h.2 ne)) sound'
    refine ⟨⟨?_, fun _ => ?_⟩, ?_⟩
    · rw [(above' depth (Nat.lt_succ_self _)).2, hs]
      exact here
    · rw [Doc.last, ht, Doc.take, grow, List.getLast?_concat]
      exact reads
    · have hl : literals (text ++ [b]) = (literals text).dropLast ++ [(Doc.new.read text).last ++ [c]] := by
        rw [hl, ← Doc.texts_new]
        rfl
      rw [hl, List.any_append, List.any_cons, List.any_nil, Bool.or_false, found, ← Bool.or_assoc]
      exact congrArg (· || _) (or_of_imp fun hr => sound (by rw [any, hr, Bool.true_or])).symm

/-- The next byte of a value is read at its own level and at those below. -/
theorem byteAt_reads (levels : Nat) : ∀ {depth : Nat}, depth + levels + 1 = MAX_DEPTH → ByteReads levels depth := by
  induction levels with
  | zero =>
    intro depth room b v bounded
    obtain rfl : depth = 3 := Nat.add_right_cancel room
    have hd : 3 < v.value.length := bounded.value ▸ Nat.lt_succ_self 3
    obtain ⟨value, hvalue⟩ : ∃ value, v.value[3]? = some value := ⟨_, List.getElem?_eq_getElem hd⟩
    have flat : value.shape.next true b ≠ .json := Shape.next_last (fun hs => absurd (bounded.last hvalue hs) (Nat.lt_irrefl _)) b
    rw [byteAt_eq hvalue]
    refine ⟨_, if_neg flat, ?_, above_setValue v 3 _, fun text h sound => ?_⟩
    · exact bounded.withValue (Nat.lt_succ_self 3) (fun hj => absurd hj flat) _
    · obtain ⟨value', hvalue', begun, shape⟩ := h
      cases hvalue.symm.trans hvalue'
      refine ⟨⟨_, List.getElem?_set_self hd, (begins_begun begun b).1, ?_⟩, ?_⟩
      · rw [← shapeOf_next, ← shape]
        rfl
      · have hp : LOCAL_PREFIX.isPrefixOf text = true → v.found = true := fun hp => sound (by rw [refers, hp, Bool.true_or])
        have ho : opens text = true → v.found = true := fun ho => sound (by rw [refers, ho, Bool.or_true])
        have refused := shapeOf_refused true text b
        rw [← shape] at refused
        refine (congrArg₂ (fun x y => v.found || x || y) (begins_found begun b) refused).trans ?_
        rw [or_found hp, refers, opens_concat, ← Bool.or_assoc, ← Bool.or_assoc, Bool.true_and]
        exact congrArg (· || _) (or_of_imp fun h => by rw [ho h, Bool.true_or]).symm
  | succ levels ih =>
    intro depth room b v bounded
    have room' : depth + 1 < MAX_DEPTH := by omega
    have hd : depth < v.value.length := by rw [bounded.value]; omega
    obtain ⟨value, hvalue⟩ : ∃ value, v.value[depth]? = some value := ⟨_, List.getElem?_eq_getElem hd⟩
    have last : decide (MAX_DEPTH ≤ depth + 1) = false := decide_eq_false (Nat.not_le.mpr room')
    rw [byteAt_eq hvalue, last]
    dsimp only
    generalize hv₁ : ({ v with
      value := v.value.set depth { (value.begins b).1 with shape := value.shape.next false b }
      found := v.found || (value.begins b).2 || value.shape.refused false b } : Values) = v₁
    have bounded₁ : v₁.Bounded := by
      rw [← hv₁]
      exact bounded.withValue (Nat.lt_of_succ_lt room') (fun _ => room') _
    have above₁ : Above depth v v₁ := hv₁ ▸ above_setValue v depth _
    have value₁ : v₁.value[depth]? = some { (value.begins b).1 with shape := value.shape.next false b } := by
      rw [← hv₁]
      exact List.getElem?_set_self hd
    have json₁ : v₁.json = v.json := by rw [← hv₁]
    have below (d : Nat) (hd : depth + 1 ≤ d) : v₁.value[d]? = v.value[d]? ∧ v₁.json[d]? = v.json[d]? := by
      rw [← hv₁]
      exact ⟨List.getElem?_set_ne (Nat.ne_of_lt hd), rfl⟩
    -- What the value's own level shows of a text.
    have own {text : Bytes} (h : v.Reads (levels + 1) depth text) (sound : refers (levels + 1) text → v.found) :
        Begun (value.begins b).1.matched (text ++ [b]) ∧ value.shape.next false b = shapeOf false (text ++ [b]) ∧
          v₁.found = (v.found || LOCAL_PREFIX.isPrefixOf (text ++ [b])) := by
      have hp : LOCAL_PREFIX.isPrefixOf text = true → v.found = true := fun hp => sound (by rw [refers, hp, Bool.true_or])
      obtain ⟨value', hvalue', begun, shape, -⟩ := h
      cases hvalue.symm.trans hvalue'
      refine ⟨(begins_begun begun b).1, by rw [shape, shapeOf_next], ?_⟩
      rw [← hv₁, begins_found begun, shape, shapeOf_refused, Bool.false_and, Bool.false_and, Bool.false_and, Bool.or_false,
        or_found hp]
    by_cases hjson : value.shape.next false b = .json
    · obtain ⟨v', hbyte, bounded', above', same, reads⟩ := jsonByteWith_reads room' (ih (by omega)) b bounded₁
      refine ⟨v', (if_pos hjson).trans hbyte, bounded', above₁.trans above', fun text h sound => ?_⟩
      obtain ⟨begun', shape', found⟩ := own h sound
      have opened : opens (text ++ [b]) = true := (shapeOf_eq_json _).mp (shape' ▸ hjson)
      obtain ⟨doc, any⟩ : v₁.ReadsDoc levels depth text ∧ ((literals text).any (refers levels) → v₁.found) := by
        obtain ⟨-, -, -, -, outside, doc⟩ := h
        cases ho : opens text with
        | true =>
          refine ⟨⟨json₁ ▸ (doc ho).1, fun ht => reads_congr below ((doc ho).2 ht)⟩, fun any => ?_⟩
          rw [found, sound (by rw [refers, ho, any]; exact Bool.or_true _)]
          rfl
        | false =>
          -- There was nothing but whitespace, of which the document's scan has seen nothing.
          have new := Doc.read_spaces (spaces_of_opens opened ho)
          refine ⟨⟨?_, ?_⟩, ?_⟩
          · rw [json₁, new]
            exact outside ho
          · rw [new]
            exact fun ht => absurd rfl ht
          · rw [← Doc.texts_new, new]
            exact nofun
      obtain ⟨doc', found'⟩ := reads text doc any
      refine ⟨⟨_, same.trans value₁, begun', shape', fun ho => absurd (opened.symm.trans ho) nofun, fun _ => doc'⟩, ?_⟩
      rw [found', found, refers, opened, Bool.true_and]
      exact Bool.or_assoc ..
    · refine ⟨v₁, if_neg hjson, bounded₁, above₁, fun text h sound => ?_⟩
      obtain ⟨begun', shape', found⟩ := own h sound
      have closed : opens (text ++ [b]) = false := by
        rw [← Bool.not_eq_true, ← shapeOf_eq_json, ← shape']
        exact hjson
      obtain ⟨-, -, -, -, outside, -⟩ := h
      refine ⟨⟨_, value₁, begun', shape', fun _ => ?_, fun ho => absurd (closed.symm.trans ho) nofun⟩, ?_⟩
      · rw [json₁]
        exact outside (opens_of_concat closed)
      · rw [found, refers, closed, Bool.false_and, Bool.or_false]

end Values

/-! ### Whole values and documents -/

/-- A document's texts go on with it. -/
theorem any_literals_concat {p : Bytes → Bool} (grows : ∀ {text : Bytes} (c : UInt8), p text → p (text ++ [c])) {text : Bytes}
    (b : UInt8) (h : (literals text).any p) : (literals (text ++ [b])).any p := by
  rw [← Doc.texts_new] at h
  rw [← Doc.texts_new, Doc.read_concat]
  change ((Doc.new.read text).take ((Doc.new.read text).state.step b).2).any p
  rcases ((Doc.new.read text).state.step b).2 with _ | (_ | c)
  · exact h
  · rw [Doc.take, grow, List.any_append, h, Bool.true_or]
  · have ne : (Doc.new.read text).texts ≠ [] := by
      intro none
      rw [none] at h
      cases h
    rw [← List.dropLast_append_getLast ne, List.any_append, Bool.or_eq_true] at h
    rw [Doc.take, grow, List.any_append, Bool.or_eq_true, List.getLast?_eq_some_getLast ne]
    refine h.imp_right fun h => ?_
    rw [List.any_cons, List.any_nil, Bool.or_false] at h ⊢
    exact grows c h

/-- A text that refers to a local file still does once it goes on. -/
theorem refers_concat (levels : Nat) : ∀ {text : Bytes} (b : UInt8), refers levels text → refers levels (text ++ [b]) := by
  have starts {text : Bytes} (b : UInt8) (h : LOCAL_PREFIX.isPrefixOf text = true) : LOCAL_PREFIX.isPrefixOf (text ++ [b]) = true := by
    rw [List.isPrefixOf_iff_prefix] at h ⊢
    exact List.prefix_append_of_prefix h
  have opened {text : Bytes} (b : UInt8) (h : opens text = true) : opens (text ++ [b]) = true := by
    rw [opens_concat, h, Bool.true_or]
  induction levels with
  | zero =>
    intro text b h
    rw [refers, Bool.or_eq_true] at h ⊢
    exact h.imp (starts b) (opened b)
  | succ levels ih =>
    intro text b h
    rw [refers, Bool.or_eq_true, Bool.and_eq_true] at h ⊢
    exact h.imp (starts b) fun ⟨ho, any⟩ => ⟨opened b ho, any_literals_concat ih b any⟩

namespace Values

/-- The next byte of a body. -/
theorem jsonByte_reads (b : UInt8) {v : Values} (bounded : v.Bounded) {text : Bytes} (doc : v.ReadsDoc 2 0 text)
    (found : v.found = (literals text).any (refers 2)) :
    ∃ v', v.jsonByte 0 b = some v' ∧ v'.Bounded ∧ v'.ReadsDoc 2 0 (text ++ [b]) ∧
      v'.found = (literals (text ++ [b])).any (refers 2) := by
  obtain ⟨v', h, bounded', -, -, reads⟩ := jsonByteWith_reads (Nat.lt_of_sub_eq_succ rfl : 0 + 1 < MAX_DEPTH) (byteAt_reads 2 rfl) b bounded
  obtain ⟨doc', found'⟩ := reads text doc (found ▸ id)
  refine ⟨v', h, bounded', doc', ?_⟩
  rw [found', found, Bool.or_comm]
  exact or_of_imp (any_literals_concat (refers_concat 2) b)

/-- Once a reference has been found, it is found in whatever the body goes on with. -/
theorem any_literals_append {text : Bytes} (rest : Bytes) (h : (literals text).any (refers 2)) :
    (literals (text ++ rest)).any (refers 2) := by
  induction rest generalizing text with
  | nil => rwa [List.append_nil]
  | cons b rest ih =>
    rw [List.append_cons]
    exact ih (any_literals_concat (refers_concat 2) b h)

theorem jsonScan_eq (rest : Bytes) {v : Values} (bounded : v.Bounded) {text : Bytes} (doc : v.ReadsDoc 2 0 text)
    (found : v.found = (literals text).any (refers 2)) (clean : v.found = false) :
    v.jsonScan rest = some ((literals (text ++ rest)).any (refers 2)) := by
  induction rest generalizing v text with
  | nil => rw [jsonScan, List.append_nil, ← found, clean]
  | cons b rest ih =>
    obtain ⟨v', h, bounded', doc', found'⟩ := jsonByte_reads b bounded doc found
    rw [jsonScan, h, List.append_cons]
    change (if v'.found then some true else v'.jsonScan rest) = _
    cases hf : v'.found with
    | true => rw [any_literals_append rest (found' ▸ hf), if_pos rfl]
    | false => exact ih bounded' doc' found' hf

end Values

/-! ### Values at the first level -/

/-- Values whose levels are all there. -/
structure Levels where
  values : Values
  bounded : values.Bounded

namespace Levels

def default : Levels := ⟨.default, Values.bounded_default⟩

def found (levels : Levels) : Bool := levels.values.found

/-- The levels an operation leaves that panics on none. -/
def ofSome (v : Option Values) (h : ∃ v', v = some v' ∧ v'.Bounded) : Levels where
  values := v.get (by obtain ⟨v', rfl, -⟩ := h; rfl)
  bounded := by
    obtain ⟨v', rfl, bounded⟩ := h
    exact bounded

theorem ofSome_eq {v : Option Values} (h : ∃ v', v = some v' ∧ v'.Bounded) : v = some (ofSome v h).values := by
  obtain ⟨v', rfl, -⟩ := h
  rfl

theorem start_bounded (levels : Levels) : ∃ v, levels.values.start 0 = some v ∧ v.Bounded := by
  obtain ⟨v, h, bounded, -⟩ := levels.bounded.start (show 0 < MAX_DEPTH by decide)
  exact ⟨v, h, bounded⟩

theorem byte_bounded (levels : Levels) (b : UInt8) : ∃ v, levels.values.byte 0 b = some v ∧ v.Bounded := by
  obtain ⟨v, h, bounded, -⟩ := Values.byteAt_reads 3 rfl b levels.bounded
  exact ⟨v, h, bounded⟩

theorem jsonByte_bounded (levels : Levels) (b : UInt8) : ∃ v, levels.values.jsonByte 0 b = some v ∧ v.Bounded := by
  obtain ⟨v, h, bounded, -⟩ := Values.jsonByteWith_reads (Nat.lt_of_sub_eq_succ rfl : 0 + 1 < MAX_DEPTH) (Values.byteAt_reads 2 rfl) b
    levels.bounded
  exact ⟨v, h, bounded⟩

/-- `Values.start` at the first level. -/
def start (levels : Levels) : Levels := ofSome _ levels.start_bounded

/-- `Values.byte` at the first level. -/
def byte (levels : Levels) (b : UInt8) : Levels := ofSome _ (levels.byte_bounded b)

/-- `Values.jsonByte` at the first level. -/
def jsonByte (levels : Levels) (b : UInt8) : Levels := ofSome _ (levels.jsonByte_bounded b)

def take (levels : Levels) : Event → Levels
  | .start => levels.start
  | .byte b => levels.byte b

/-- The values at the first level have been read as far as `texts`; `before` is whether one was found before them. -/
structure Shown (levels : Levels) (before : Bool) (texts : List Bytes) : Prop where
  last : texts ≠ [] → levels.values.Reads 3 0 (texts.getLast?.getD [])
  found : levels.found = (before || texts.any (refers 3))

theorem shown_nil (levels : Levels) : levels.Shown levels.found [] := ⟨fun h => absurd rfl h, (Bool.or_false _).symm⟩

theorem Shown.start {levels : Levels} {before : Bool} {texts : List Bytes} (h : levels.Shown before texts) :
    levels.start.Shown before (texts ++ [[]]) := by
  obtain ⟨v, hstart, -, -, found, value, json⟩ := levels.bounded.start (show 0 < MAX_DEPTH by decide)
  have eq : levels.start.values = v := Option.some.inj ((ofSome_eq levels.start_bounded).symm.trans hstart)
  refine ⟨fun _ => ?_, ?_⟩
  · rw [List.getLast?_concat, eq]
    exact Values.reads_nil value json
  · rw [Levels.found, eq, found, List.any_append, List.any_cons, refers_nil, List.any_nil, Bool.or_false, Bool.or_false]
    exact h.found

theorem Shown.byte {levels : Levels} {before : Bool} {texts : List Bytes} (h : levels.Shown before texts) (ne : texts ≠ [])
    (b : UInt8) : (levels.byte b).Shown before (grow texts (.byte b)) := by
  obtain ⟨v, hbyte, -, -, reads⟩ := Values.byteAt_reads 3 rfl b levels.bounded
  have eq : (levels.byte b).values = v := Option.some.inj ((ofSome_eq (levels.byte_bounded b)).symm.trans hbyte)
  have split : texts = texts.dropLast ++ [texts.getLast?.getD []] := by
    rw [List.getLast?_eq_some_getLast ne, Option.getD_some, List.dropLast_append_getLast]
  have found : levels.found = (before || (texts.dropLast.any (refers 3) || refers 3 (texts.getLast?.getD []))) := by
    have := h.found
    rwa [split, List.any_append, List.any_cons, List.any_nil, Bool.or_false] at this
  have sound (hr : refers 3 (texts.getLast?.getD [])) : levels.found := by
    rw [found, hr, Bool.or_true, Bool.or_true]
  obtain ⟨reads, found'⟩ := reads _ (h.last ne) sound
  refine ⟨fun _ => ?_, ?_⟩
  · rw [grow, List.getLast?_concat, eq]
    exact reads
  · change (levels.byte b).values.found = _
    rw [eq, found', grow, List.any_append, List.any_cons, List.any_nil, Bool.or_false]
    change (levels.found || _) = _
    rw [found, Bool.or_assoc, Bool.or_assoc, Bool.or_comm (refers 3 _), or_of_imp (refers_concat 3 b)]

end Levels

/-- The scan of a body finds what reading it level by level finds, and there is always a level to put what it reads at. -/
theorem jsonHasLocalFile_eq (body : Bytes) : jsonHasLocalFile body = some ((literals body).any (refers 2)) := by
  have doc : Values.default.ReadsDoc 2 0 [] := ⟨rfl, fun ht => absurd rfl ht⟩
  have found : Values.default.found = (literals []).any (refers 2) := by
    rw [literals]
    rfl
  exact Values.jsonScan_eq body Values.bounded_default doc found rfl

end Tgin.LocalFiles
