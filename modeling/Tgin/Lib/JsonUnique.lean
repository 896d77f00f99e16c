import Tgin.Lib.JsonDoc

/-! A text stands for one document: where a value ends is told by what may follow it. -/

namespace JsonText

/-- What may come after a value: whitespace, or what separates or closes values. -/
def Follows (rest : List UInt8) : Prop := ∀ b, rest.head? = some b → isWhitespace b ∨ b = comma ∨ b = 93 ∨ b = 125

/-- The kinds of values. -/
inductive Kind where
  | word | number | string | array | object
  deriving DecidableEq

/-- The kind of the values that begin so. -/
def kindOf (b : UInt8) : Option Kind :=
  if b = quote then some .string
  else if b = 91 then some .array
  else if b = 123 then some .object
  else if b = 45 || isDigit b then some .number
  else if b = 110 || b = 116 || b = 102 then some .word
  else none

/-- The kind of a document. -/
def kind : JsonDoc → Kind
  | .word _ => .word
  | .number _ => .number
  | .string _ => .string
  | .array _ => .array
  | .object _ => .object

section
variable {p : UInt8 → Prop} {l l' r r' : List UInt8}

/-- Two texts that go on as long as a predicate holds. -/
theorem run_unique (all : ∀ b ∈ l, p b) (all' : ∀ b ∈ l', p b) (stop : ∀ b, r.head? = some b → ¬p b)
    (stop' : ∀ b, r'.head? = some b → ¬p b) (h : l ++ r = l' ++ r') : l = l' ∧ r = r' := by
  induction l generalizing l' with
  | nil =>
    cases l' with
    | nil => exact ⟨rfl, h⟩
    | cons b l' =>
      rw [List.nil_append] at h
      exact absurd (all' b List.mem_cons_self) (stop b (h ▸ rfl))
  | cons b l ih =>
    cases l' with
    | nil =>
      rw [List.nil_append] at h
      exact absurd (all b List.mem_cons_self) (stop' b (h ▸ rfl))
    | cons c l' =>
      rw [List.cons_append, List.cons_append] at h
      obtain ⟨rfl, tails⟩ := List.cons.inj h
      obtain ⟨rfl, rest⟩ := ih (List.forall_mem_cons.mp all).2 (List.forall_mem_cons.mp all').2 tails
      exact ⟨rfl, rest⟩

theorem spaces_unique (all : ∀ b ∈ l, isWhitespace b) (all' : ∀ b ∈ l', isWhitespace b)
    (stop : ∀ b, r.head? = some b → ¬isWhitespace b) (stop' : ∀ b, r'.head? = some b → ¬isWhitespace b) (h : l ++ r = l' ++ r') :
    l = l' ∧ r = r' :=
  run_unique (p := (isWhitespace ·)) all all' stop stop' h

end

/-- A text that does not begin with whitespace. -/
theorem spaces_nil {before r r' : List UInt8} (all : ∀ b ∈ before, isWhitespace b) (stop : ∀ b, r.head? = some b → ¬isWhitespace b)
    (stop' : ∀ b, r'.head? = some b → ¬isWhitespace b) (h : r = before ++ r') : r = r' :=
  (@spaces_unique [] before r r' nofun all stop stop' h).2

/-- A literal ends at the first quote that no backslash stands before. -/
theorem Chars.unique {inner inner' r r' : List UInt8} (h : Chars inner) (h' : Chars inner')
    (eq : inner ++ quote :: r = inner' ++ quote :: r') : inner = inner' ∧ r = r' := by
  induction h generalizing inner' with
  | nil =>
    cases h' with
    | nil => exact ⟨rfl, (List.cons.inj eq).2⟩
    | plain _ noQuote => exact absurd (List.cons.inj eq).1.symm noQuote
    | _ => cases eq
  | plain _ noQuote noEscape _ ih =>
    cases h' with
    | nil => exact absurd (List.cons.inj eq).1 noQuote
    | plain _ _ _ h' =>
      obtain ⟨rfl, tails⟩ := List.cons.inj eq
      obtain ⟨rfl, rest⟩ := ih h' tails
      exact ⟨rfl, rest⟩
    | _ => exact absurd (List.cons.inj eq).1 noEscape
  | escape escape _ ih =>
    cases h' with
    | nil => cases eq
    | plain _ _ noEscape => exact absurd (List.cons.inj eq).1.symm noEscape
    | escape _ h' =>
      obtain ⟨rfl, tails⟩ := List.cons.inj (List.cons.inj eq).2
      obtain ⟨rfl, rest⟩ := ih h' tails
      exact ⟨rfl, rest⟩
    | unicode =>
      obtain ⟨rfl, -⟩ := List.cons.inj (List.cons.inj eq).2
      cases escape
  | @unicode digits rest n hex _ ih =>
    cases h' with
    | nil => cases eq
    | plain _ _ noEscape => exact absurd (List.cons.inj eq).1.symm noEscape
    | escape escape =>
      obtain ⟨rfl, -⟩ := List.cons.inj (List.cons.inj eq).2
      cases escape
    | @unicode digits' rest' n' hex' h' =>
      have same : digits ++ (rest ++ quote :: r) = digits' ++ (rest' ++ quote :: r') := by
        rw [← List.append_assoc, ← List.append_assoc]
        exact (List.cons.inj (List.cons.inj eq).2).2
      obtain ⟨rfl, tails⟩ := List.append_inj same (hex.length.trans hex'.length.symm)
      obtain ⟨rfl, rest⟩ := ih h' tails
      exact ⟨rfl, rest⟩

theorem kindOf_number {b : UInt8} (h : b = 45 ∨ isDigit b) : kindOf b = some .number := by
  rcases h with rfl | digit
  · rfl
  · have other {c : UInt8} (hc : isDigit c = false) : b ≠ c := by
      rintro rfl
      rw [hc] at digit
      cases digit
    simp only [kindOf, if_neg (other (c := quote) rfl), if_neg (other (c := 91) rfl), if_neg (other (c := 123) rfl), digit,
      Bool.or_true, if_true]

theorem kindOf_numeric {b : UInt8} {k : Kind} (h : isNumeric b) (isKind : kindOf b = some k) : k = .number := by
  have digit (h : b = 45 ∨ isDigit b) : k = .number := Option.some.inj (isKind.symm.trans (kindOf_number h))
  simp only [isNumeric, Bool.or_eq_true, decide_eq_true_eq] at h
  rcases h with ((((h | h) | rfl) | rfl) | rfl) | rfl
  · exact digit (.inr h)
  · exact digit (.inl h)
  all_goals cases isKind

theorem Denotes.begins {text : List UInt8} {doc : JsonDoc} (h : Denotes text doc) :
    ∃ b rest, text = b :: rest ∧ kindOf b = some (kind doc) := by
  cases h with
  | word mem =>
    simp only [words, List.mem_cons, List.not_mem_nil, or_false] at mem
    rcases mem with rfl | rfl | rfl <;> exact ⟨_, _, rfl, rfl⟩
  | number n formed =>
    obtain ⟨b, rest, eq⟩ := List.exists_cons_of_ne_nil formed.ne_nil
    exact ⟨b, rest, eq, kindOf_number (formed.first eq)⟩
  | _ => exact ⟨_, _, rfl, rfl⟩

/-- Values that begin alike are of one kind. -/
theorem Denotes.kind_eq {text text' r r' : List UInt8} {doc doc' : JsonDoc} (h : Denotes text doc) (h' : Denotes text' doc')
    (eq : text ++ r = text' ++ r') : kind doc = kind doc' := by
  obtain ⟨b, rest, rfl, begins⟩ := h.begins
  obtain ⟨b', rest', rfl, begins'⟩ := h'.begins
  obtain rfl := (List.cons.inj eq).1
  exact Option.some.inj (begins.symm.trans begins')

theorem kindOf_space {b : UInt8} (h : isWhitespace b) : kindOf b = none := by
  simp only [isWhitespace, Bool.or_eq_true, decide_eq_true_eq] at h
  rcases h with ((rfl | rfl) | rfl) | rfl <;> rfl

theorem Denotes.not_space {text r : List UInt8} {doc : JsonDoc} (h : Denotes text doc) (b : UInt8) (hb : (text ++ r).head? = some b) :
    ¬isWhitespace b := by
  obtain ⟨c, rest, rfl, begins⟩ := h.begins
  obtain rfl := Option.some.inj hb
  intro space
  rw [kindOf_space space] at begins
  cases begins

theorem not_space_cons {c : UInt8} (hc : ¬isWhitespace c) {rest : List UInt8} (b : UInt8) (hb : (c :: rest).head? = some b) :
    ¬isWhitespace b := by
  obtain rfl := Option.some.inj hb
  exact hc

/-! ### Between separators -/

/-- Where a value ends, whatever follows. -/
def Ends (value : List UInt8) (doc : JsonDoc) : Prop := ∀ ⦃value' : List UInt8⦄ ⦃doc' : JsonDoc⦄ ⦃r r' : List UInt8⦄,
  Denotes value' doc' → value ++ r = value' ++ r' → Follows r → Follows r' → value = value' ∧ doc = doc'

/-- What comes between values, and what closes them. -/
def Separates (close s : UInt8) : Prop := s = comma ∨ s = close

section
variable {close s s' : UInt8} {x y : List UInt8} {p p' : Padded} {m m' : Member} {doc doc' : JsonDoc}

theorem follows_spaced {after : List UInt8} (spaced : ∀ b ∈ after, isWhitespace b) (closes : close = 93 ∨ close = 125)
    (sep : Separates close s) : Follows (after ++ s :: x) := by
  intro b hb
  cases after with
  | nil =>
    obtain rfl := Option.some.inj hb
    rcases sep with rfl | rfl
    · exact .inr (.inl rfl)
    · exact .inr (.inr closes)
  | cons c after =>
    obtain rfl := Option.some.inj hb
    exact .inl (spaced c List.mem_cons_self)

theorem Padded.unique (closes : close = 93 ∨ close = 125) (spaced : p.Spaced) (spaced' : p'.Spaced) (denotes : Denotes p.value doc)
    (denotes' : Denotes p'.value doc') (ends : Ends p.value doc) (sep : Separates close s) (sep' : Separates close s')
    (h : p.bytes ++ s :: x = p'.bytes ++ s' :: y) : p = p' ∧ doc = doc' ∧ s :: x = s' :: y := by
  have separator {s : UInt8} (sep : Separates close s) : ¬isWhitespace s := by
    rcases sep with rfl | rfl
    · decide
    · rcases closes with rfl | rfl <;> decide
  obtain ⟨before, value, after⟩ := p
  obtain ⟨before', value', after'⟩ := p'
  simp only [Padded.bytes, List.append_assoc] at h
  obtain ⟨rfl, h⟩ := spaces_unique spaced.1 spaced'.1 denotes.not_space denotes'.not_space h
  obtain ⟨rfl, rfl⟩ := ends denotes' h (follows_spaced spaced.2 closes sep) (follows_spaced spaced'.2 closes sep')
  obtain ⟨rfl, rest⟩ :=
    spaces_unique spaced.2 spaced'.2 (not_space_cons (separator sep)) (not_space_cons (separator sep')) (List.append_cancel_left h)
  exact ⟨rfl, rfl, rest⟩

theorem Member.unique (formed : m.Formed) (formed' : m'.Formed) (denotes : Denotes m.value.value doc)
    (denotes' : Denotes m'.value.value doc') (ends : Ends m.value.value doc) (sep : Separates 125 s) (sep' : Separates 125 s')
    (h : m.bytes ++ s :: x = m'.bytes ++ s' :: y) : m = m' ∧ doc = doc' ∧ s :: x = s' :: y := by
  obtain ⟨⟨before, key, after⟩, value⟩ := m
  obtain ⟨⟨before', key', after'⟩, value'⟩ := m'
  simp only [Member.bytes, quoted, List.append_assoc, List.cons_append, List.nil_append] at h
  obtain ⟨rfl, fromKey⟩ := spaces_unique formed.key.1.1 formed'.key.1.1 (not_space_cons (by decide)) (not_space_cons (by decide)) h
  obtain ⟨rfl, fromAfter⟩ := formed.key.2.unique formed'.key.2 (List.cons.inj fromKey).2
  obtain ⟨rfl, fromColon⟩ :=
    spaces_unique formed.key.1.2 formed'.key.1.2 (not_space_cons (by decide)) (not_space_cons (by decide)) fromAfter
  obtain ⟨rfl, rfl, rest⟩ :=
    Padded.unique (.inr rfl) formed.value formed'.value denotes denotes' ends sep sep' (List.cons.inj fromColon).2
  exact ⟨rfl, rfl, rest⟩

/-- Two parts are told by what follows them. -/
def Told {β : Type} (close : UInt8) (bytes : β → List UInt8) (p p' : β) : Prop := ∀ ⦃s s' : UInt8⦄ ⦃x y : List UInt8⦄,
  Separates close s → Separates close s' → bytes p ++ s :: x = bytes p' ++ s' :: y → p = p' ∧ s :: x = s' :: y

theorem intercalate_unique {β : Type} {bytes : β → List UInt8} (ne : close ≠ comma) {l l' : List β} {r r' : List UInt8}
    (parts : ∀ p ∈ l, ∀ p' ∈ l', Told close bytes p p')
    (some : l ≠ []) (some' : l' ≠ [])
    (h : List.intercalate [comma] (l.map bytes) ++ close :: r = List.intercalate [comma] (l'.map bytes) ++ close :: r') : l = l' := by
  -- the first part, and what follows it
  have split (p : β) (l : List β) (r : List UInt8) : List.intercalate [comma] ((p :: l).map bytes) ++ close :: r =
      bytes p ++ if l = [] then close :: r else comma :: (List.intercalate [comma] (l.map bytes) ++ close :: r) := by
    cases l with
    | nil => simp only [List.map_cons, List.map_nil, List.intercalate_singleton, if_true]
    | cons q l =>
      rw [if_neg (List.cons_ne_nil q l), List.map_cons, List.map_cons, List.intercalate_cons_cons, List.append_assoc, List.append_assoc]
      rfl
  induction l generalizing l' with
  | nil => exact absurd rfl some
  | cons p l ih =>
    obtain ⟨p', l', rfl⟩ := List.exists_cons_of_ne_nil some'
    have here : Told close bytes p p' := parts p List.mem_cons_self p' List.mem_cons_self
    rw [split, split] at h
    by_cases last : l = [] <;> by_cases last' : l' = []
    · rw [last, last', if_pos rfl, if_pos rfl] at h
      rw [(here (.inr rfl) (.inr rfl) h).1, last, last']
    · rw [if_pos last, if_neg last'] at h
      exact absurd (List.cons.inj (here (.inr rfl) (.inl rfl) h).2).1 ne
    · rw [if_neg last, if_pos last'] at h
      exact absurd (List.cons.inj (here (.inl rfl) (.inr rfl) h).2).1.symm ne
    · rw [if_neg last, if_neg last'] at h
      obtain ⟨rfl, rest⟩ := here (.inl rfl) (.inl rfl) h
      rw [ih (fun q hq q' hq' => parts q (List.mem_cons_of_mem _ hq) q' (List.mem_cons_of_mem _ hq')) last last' (List.cons.inj rest).2]

/-- What stands between brackets: whitespace, or the parts. -/
def Listed {β : Type} (bytes : β → List UInt8) (body : List UInt8) (l : List β) : Prop :=
  l = [] ∧ (∀ b ∈ body, isWhitespace b) ∨ l ≠ [] ∧ body = List.intercalate [comma] (l.map bytes)

theorem Listed.of_parts {β : Type} (bytes : β → List UInt8) (l : List β) : Listed bytes (List.intercalate [comma] (l.map bytes)) l := by
  cases l with
  | nil => exact .inl ⟨rfl, nofun⟩
  | cons p l => exact .inr ⟨List.cons_ne_nil p l, rfl⟩

/-- A part is not mistaken for the closing bracket. -/
def Opens (close : UInt8) (part : List UInt8) : Prop :=
  ∃ before b rest, part = before ++ b :: rest ∧ (∀ b ∈ before, isWhitespace b) ∧ ¬isWhitespace b ∧ b ≠ close

theorem Listed.unique {β : Type} {bytes : β → List UInt8} {body body' r r' : List UInt8} {l l' : List β} (ne : close ≠ comma)
    (closes : ¬isWhitespace close) (h : Listed bytes body l) (h' : Listed bytes body' l')
    (parts : ∀ p ∈ l, ∀ p' ∈ l', Told close bytes p p')
    (opens : ∀ p ∈ l, Opens close (bytes p)) (opens' : ∀ p ∈ l', Opens close (bytes p))
    (eq : body ++ close :: r = body' ++ close :: r') : body = body' ∧ l = l' := by
  -- whitespace up to the bracket is no part
  have apart {space : List UInt8} {l : List β} {r r' : List UInt8} (spaced : ∀ b ∈ space, isWhitespace b) (some : l ≠ [])
      (opens : ∀ p ∈ l, Opens close (bytes p))
      (eq : space ++ close :: r = List.intercalate [comma] (l.map bytes) ++ close :: r') : False := by
    obtain ⟨p, l, rfl⟩ := List.exists_cons_of_ne_nil some
    obtain ⟨before, b, rest, part, white, solid, other⟩ := opens p List.mem_cons_self
    obtain ⟨tail, whole⟩ : ∃ tail, List.intercalate [comma] ((p :: l).map bytes) = bytes p ++ tail := by
      cases l with
      | nil => exact ⟨[], by simp⟩
      | cons q l => exact ⟨_, by rw [List.map_cons, List.map_cons, List.intercalate_cons_cons, List.append_assoc]⟩
    rw [whole, part] at eq
    simp only [List.append_assoc, List.cons_append] at eq
    exact other (List.cons.inj (spaces_unique spaced white (not_space_cons closes) (not_space_cons solid) eq).2).1.symm
  rcases h with ⟨rfl, spaced⟩ | ⟨some, rfl⟩ <;> rcases h' with ⟨rfl, spaced'⟩ | ⟨some', rfl⟩
  · exact ⟨(spaces_unique spaced spaced' (not_space_cons closes) (not_space_cons closes) eq).1, rfl⟩
  · exact (apart spaced some' opens' eq).elim
  · exact (apart spaced' some opens eq.symm).elim
  · obtain rfl := intercalate_unique ne parts some some' eq
    exact ⟨rfl, rfl⟩

end

/-! ### Values -/

theorem not_isLower_of_follows {r : List UInt8} (h : Follows r) (b : UInt8) (hb : r.head? = some b) : ¬(97 ≤ b ∧ b ≤ 122) := by
  rintro lower
  rcases h b hb with space | rfl | rfl | rfl
  · simp only [isWhitespace, Bool.or_eq_true, decide_eq_true_eq] at space
    rcases space with ((rfl | rfl) | rfl) | rfl <;> exact absurd lower (by decide)
  all_goals exact absurd lower (by decide)

theorem not_isNumeric_of_follows {r : List UInt8} (h : Follows r) (b : UInt8) (hb : r.head? = some b) : ¬isNumeric b := by
  rcases h b hb with space | rfl | rfl | rfl
  · simp only [isWhitespace, Bool.or_eq_true, decide_eq_true_eq] at space
    rcases space with ((rfl | rfl) | rfl) | rfl <;> decide
  all_goals decide

theorem words_lower {word : List UInt8} (h : word ∈ words) : ∀ b ∈ word, 97 ≤ b ∧ b ≤ 122 := by
  have all : words.all fun word => word.all fun b => 97 ≤ b ∧ b ≤ 122 := by decide
  exact List.all_iff_forall_prop.mp (List.all_eq_true.mp all word h)

theorem Denotes.of_number {text t : List UInt8} (h : Denotes text (.number t)) :
    ∃ n : Number, n.Formed ∧ text = n.bytes ∧ t = n.bytes := by
  cases h with
  | number n formed => exact ⟨n, formed, rfl, rfl⟩

theorem Denotes.of_array {text : List UInt8} {docs : List JsonDoc} (h : Denotes text (.array docs)) :
    ∃ body, ∃ l : List (Padded × JsonDoc), text = 91 :: body ++ [93] ∧ Listed (·.1.bytes) body l ∧ docs = l.map (·.2) ∧
      (∀ e ∈ l, e.1.Spaced) ∧ ∀ e ∈ l, Denotes e.1.value e.2 := by
  cases h with
  | emptyArray spaced => exact ⟨_, [], rfl, .inl ⟨rfl, spaced⟩, rfl, nofun, nofun⟩
  | array elements spaced values =>
    refine ⟨_, elements, ?_, .of_parts _ elements, rfl, spaced, values⟩
    rw [JsonText.array, List.map_map]
    rfl

theorem Denotes.of_object {text : List UInt8} {members : List (List UInt8 × JsonDoc)} (h : Denotes text (.object members)) :
    ∃ body, ∃ l : List (Member × JsonDoc), text = 123 :: body ++ [125] ∧ Listed (·.1.bytes) body l ∧
      members = l.map (fun m => (m.1.key.value, m.2)) ∧ (∀ m ∈ l, m.1.Formed) ∧ ∀ m ∈ l, Denotes m.1.value.value m.2 := by
  cases h with
  | emptyObject spaced => exact ⟨_, [], rfl, .inl ⟨rfl, spaced⟩, rfl, nofun, nofun⟩
  | object members formed values =>
    refine ⟨_, members, ?_, .of_parts _ members, rfl, formed, values⟩
    rw [JsonText.object, List.map_map]
    rfl

theorem Denotes.opens {value before after : List UInt8} {doc : JsonDoc} (h : Denotes value doc) (spaced : ∀ b ∈ before, isWhitespace b)
    (closes : kindOf close = none) : Opens close (before ++ value ++ after) := by
  obtain ⟨b, rest, rfl, begins⟩ := h.begins
  refine ⟨before, b, rest ++ after, by simp only [List.append_assoc, List.cons_append], spaced, fun space => ?_, ?_⟩
  · rw [kindOf_space space] at begins
    cases begins
  · rintro rfl
    rw [closes] at begins
    cases begins

theorem array_ends {body : List UInt8} {l : List (Padded × JsonDoc)} (listed : Listed (·.1.bytes) body l)
    (spaced : ∀ e ∈ l, e.1.Spaced) (values : ∀ e ∈ l, Denotes e.1.value e.2) (ends : ∀ e ∈ l, Ends e.1.value e.2)
    (whole : Denotes (91 :: body ++ [93]) (.array (l.map (·.2)))) :
    Ends (91 :: body ++ [93]) (.array (l.map (·.2))) := by
  intro value' doc' r r' h' eq _ _
  have kind := whole.kind_eq h' eq
  cases doc' with
  | array docs =>
    obtain ⟨body', l', rfl, listed', rfl, spaced', values'⟩ := h'.of_array
    have opens {l : List (Padded × JsonDoc)} (spaced : ∀ e ∈ l, e.1.Spaced) (values : ∀ e ∈ l, Denotes e.1.value e.2) :
        ∀ e ∈ l, Opens 93 e.1.bytes := fun e he => (values e he).opens (spaced e he).1 rfl
    have told : ∀ e ∈ l, ∀ e' ∈ l', Told 93 (·.1.bytes) e e' := by
      intro e he e' he' s s' x y sep sep' eq
      obtain ⟨text, doc, rest⟩ :=
        Padded.unique (.inl rfl) (spaced e he) (spaced' e' he') (values e he) (values' e' he') (ends e he) sep sep' eq
      exact ⟨Prod.ext text doc, rest⟩
    simp only [List.append_assoc, List.cons_append, List.nil_append] at eq
    obtain ⟨rfl, rfl⟩ :=
      listed.unique (by decide) (by decide) listed' told (opens spaced values) (opens spaced' values') (List.cons.inj eq).2
    exact ⟨rfl, rfl⟩
  | _ => cases kind

theorem object_ends {body : List UInt8} {l : List (Member × JsonDoc)} (listed : Listed (·.1.bytes) body l)
    (formed : ∀ m ∈ l, m.1.Formed) (values : ∀ m ∈ l, Denotes m.1.value.value m.2) (ends : ∀ m ∈ l, Ends m.1.value.value m.2)
    (whole : Denotes (123 :: body ++ [125]) (.object (l.map fun m => (m.1.key.value, m.2)))) :
    Ends (123 :: body ++ [125]) (.object (l.map fun m => (m.1.key.value, m.2))) := by
  intro value' doc' r r' h' eq _ _
  have kind := whole.kind_eq h' eq
  cases doc' with
  | object members =>
    obtain ⟨body', l', rfl, listed', rfl, formed', values'⟩ := h'.of_object
    have opens {l : List (Member × JsonDoc)} (formed : ∀ m ∈ l, m.1.Formed) : ∀ m ∈ l, Opens 125 m.1.bytes := fun m hm =>
      ⟨m.1.key.before, quote, _, by simp only [Member.bytes, quoted, List.append_assoc, List.cons_append]; rfl, (formed m hm).key.1.1,
        by decide, by decide⟩
    have told : ∀ m ∈ l, ∀ m' ∈ l', Told 125 (·.1.bytes) m m' := by
      intro m hm m' hm' s s' x y sep sep' eq
      obtain ⟨text, doc, rest⟩ := Member.unique (formed m hm) (formed' m' hm') (values m hm) (values' m' hm') (ends m hm) sep sep' eq
      exact ⟨Prod.ext text doc, rest⟩
    simp only [List.append_assoc, List.cons_append, List.nil_append] at eq
    obtain ⟨rfl, rfl⟩ := listed.unique (by decide) (by decide) listed' told (opens formed) (opens formed') (List.cons.inj eq).2
    exact ⟨rfl, rfl⟩
  | _ => cases kind

theorem Denotes.ends {value : List UInt8} {doc : JsonDoc} (h : Denotes value doc) : Ends value doc := by
  induction h with
  | word mem =>
    intro value' doc' r r' h' eq follows follows'
    have kind := (Denotes.word mem).kind_eq h' eq
    cases h' with
    | word mem' =>
      obtain ⟨rfl, -⟩ := run_unique (p := fun b => 97 ≤ b ∧ b ≤ 122) (words_lower mem) (words_lower mem')
        (not_isLower_of_follows follows) (not_isLower_of_follows follows') eq
      exact ⟨rfl, rfl⟩
    | _ => cases kind
  | number n formed =>
    intro value' doc' r r' h' eq follows follows'
    have kind := (Denotes.number n formed).kind_eq h' eq
    cases h' with
    | number n' formed' =>
      obtain ⟨same, -⟩ := run_unique (p := (isNumeric ·)) formed.numeric formed'.numeric
        (not_isNumeric_of_follows follows) (not_isNumeric_of_follows follows') eq
      exact ⟨same, congrArg JsonDoc.number same⟩
    | _ => cases kind
  | string chars =>
    intro value' doc' r r' h' eq _ _
    have kind := (Denotes.string chars).kind_eq h' eq
    cases h' with
    | string chars' =>
      simp only [quoted, List.append_assoc, List.cons_append, List.nil_append] at eq
      obtain ⟨rfl, -⟩ := chars.unique chars' (List.cons.inj eq).2
      exact ⟨rfl, rfl⟩
    | _ => cases kind
  | emptyArray spaced => exact array_ends (l := []) (.inl ⟨rfl, spaced⟩) (List.forall_mem_nil _) (List.forall_mem_nil _) (List.forall_mem_nil _) (.emptyArray spaced)
  | array elements spaced values ih =>
    have whole := Denotes.array elements spaced values
    rw [JsonText.array, List.map_map] at whole ⊢
    exact array_ends (.of_parts _ elements) spaced values ih whole
  | emptyObject spaced => exact object_ends (l := []) (.inl ⟨rfl, spaced⟩) (List.forall_mem_nil _) (List.forall_mem_nil _) (List.forall_mem_nil _) (.emptyObject spaced)
  | object members formed values ih =>
    have whole := Denotes.object members formed values
    rw [JsonText.object, List.map_map] at whole ⊢
    exact object_ends (.of_parts _ members) formed values ih whole

/-- A text stands for one document. -/
theorem Denotes.unique {text : List UInt8} {doc doc' : JsonDoc} (h : Denotes text doc) (h' : Denotes text doc') : doc = doc' :=
  (@Denotes.ends _ _ h _ _ [] [] h' rfl nofun nofun).2

open Classical in
/-- The document that a text stands for, if there is one. -/
noncomputable def docOf (text : List UInt8) : Option JsonDoc := if h : ∃ doc, Denotes text doc then some h.choose else none

theorem Denotes.docOf {text : List UInt8} {doc : JsonDoc} (h : Denotes text doc) : JsonText.docOf text = some doc := by
  have exists' : ∃ doc, Denotes text doc := ⟨doc, h⟩
  rw [JsonText.docOf, dif_pos exists', exists'.choose_spec.unique h]

end JsonText
