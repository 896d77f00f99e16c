import Tgin.Lib.JsonText

/-! The document that a JSON text stands for, and what changes in it with one value of the text. A string, or a key, is what
    stands between its quotes, and a number its text. -/

inductive JsonDoc where
  | word (word : List UInt8)
  | number (text : List UInt8)
  | string (inner : List UInt8)
  | array (elements : List JsonDoc)
  | object (members : List (List UInt8 × JsonDoc))

namespace JsonText

/-- The value stands for the document. -/
inductive Denotes : List UInt8 → JsonDoc → Prop where
  | word {word : List UInt8} (mem : word ∈ words) : Denotes word (.word word)
  | number (n : Number) (formed : n.Formed) : Denotes n.bytes (.number n.bytes)
  | string {inner : List UInt8} (chars : Chars inner) : Denotes (quoted inner) (.string inner)
  | emptyArray {space : List UInt8} (spaced : ∀ b ∈ space, isWhitespace b) : Denotes (91 :: space ++ [93]) (.array [])
  | array (elements : List (Padded × JsonDoc)) (spaced : ∀ e ∈ elements, e.1.Spaced) (values : ∀ e ∈ elements, Denotes e.1.value e.2) :
    Denotes (array (elements.map (·.1))) (.array (elements.map (·.2)))
  | emptyObject {space : List UInt8} (spaced : ∀ b ∈ space, isWhitespace b) : Denotes (123 :: space ++ [125]) (.object [])
  | object (members : List (Member × JsonDoc)) (formed : ∀ m ∈ members, m.1.Formed)
    (values : ∀ m ∈ members, Denotes m.1.value.value m.2) :
    Denotes (object (members.map (·.1))) (.object (members.map fun m => (m.1.key.value, m.2)))

/-- The text, a value between whitespace, stands for the document. -/
def Parses (text : List UInt8) (doc : JsonDoc) : Prop := ∃ p : Padded, p.Spaced ∧ text = p.bytes ∧ Denotes p.value doc

/-- What each has, all have together. -/
theorem exists_pairs {α β : Type} {P : α → β → Prop} {l : List α} (h : ∀ a ∈ l, ∃ b, P a b) :
    ∃ pairs : List (α × β), pairs.map (·.1) = l ∧ ∀ p ∈ pairs, P p.1 p.2 := by
  induction l with
  | nil => exact ⟨[], rfl, nofun⟩
  | cons a l ih =>
    obtain ⟨b, hb⟩ := h a List.mem_cons_self
    obtain ⟨pairs, same, all⟩ := ih fun a' ha' => h a' (List.mem_cons_of_mem _ ha')
    exact ⟨(a, b) :: pairs, by rw [List.map_cons, same], List.forall_mem_cons.mpr ⟨hb, all⟩⟩

theorem Value.denotes {text : List UInt8} (h : Value text) : ∃ doc, Denotes text doc := by
  induction h with
  | word mem => exact ⟨_, .word mem⟩
  | number n formed => exact ⟨_, .number n formed⟩
  | string chars => exact ⟨_, .string chars⟩
  | emptyArray spaced => exact ⟨_, .emptyArray spaced⟩
  | array elements spaced _ ih =>
    obtain ⟨pairs, rfl, values⟩ := exists_pairs ih
    exact ⟨_, .array pairs (fun e he => spaced e.1 (List.mem_map_of_mem he)) values⟩
  | emptyObject spaced => exact ⟨_, .emptyObject spaced⟩
  | object members formed _ ih =>
    obtain ⟨pairs, rfl, values⟩ := exists_pairs ih
    exact ⟨_, .object pairs (fun m hm => formed m.1 (List.mem_map_of_mem hm)) values⟩

theorem Denotes.value {text : List UInt8} {doc : JsonDoc} (h : Denotes text doc) : Value text := by
  induction h with
  | word mem => exact .word mem
  | number n formed => exact .number n formed
  | string chars => exact .string chars
  | emptyArray spaced => exact .emptyArray spaced
  | array elements spaced _ ih => exact .array _ (List.forall_mem_map.mpr spaced) (List.forall_mem_map.mpr ih)
  | emptyObject spaced => exact .emptyObject spaced
  | object members formed _ ih => exact .object _ (List.forall_mem_map.mpr formed) (List.forall_mem_map.mpr ih)

/-! ### One value among others -/

theorem intercalate_middle (pre : List (List UInt8)) (part : List UInt8) (post : List (List UInt8)) :
    List.intercalate [comma] (pre ++ part :: post) = pre.flatMap (· ++ [comma]) ++ part ++ post.flatMap (comma :: ·) := by
  induction pre with
  | nil =>
    rw [List.nil_append, List.flatMap_nil, List.nil_append]
    induction post generalizing part with
    | nil => rw [List.intercalate_singleton, List.flatMap_nil, List.append_nil]
    | cons next post ih =>
      rw [List.intercalate_cons_cons, ih, List.flatMap_cons, List.append_assoc]
      rfl
  | cons first pre ih =>
    rw [List.cons_append, List.intercalate_cons_of_ne_nil (List.append_ne_nil_of_right_ne_nil _ (List.cons_ne_nil _ _)), ih,
      List.flatMap_cons]
    simp only [List.append_assoc]

/-- What of an object stands before the value of a member. -/
def beforeMember (pre : List Member) (m : Member) : List UInt8 :=
  123 :: pre.flatMap (fun p => p.bytes ++ [comma]) ++ m.key.before ++ quoted m.key.value ++ m.key.after ++ [colon] ++ m.value.before

def afterMember (m : Member) (post : List Member) : List UInt8 := m.value.after ++ post.flatMap (comma :: ·.bytes) ++ [125]

theorem object_eq (pre : List Member) (m : Member) (post : List Member) :
    object (pre ++ m :: post) = beforeMember pre m ++ m.value.value ++ afterMember m post := by
  rw [object, List.map_append, List.map_cons, intercalate_middle, List.flatMap_map, List.flatMap_map, beforeMember, afterMember,
    Member.bytes, Padded.bytes]
  simp only [List.append_assoc, List.cons_append]

/-- What of an array stands before an element. -/
def beforeElement (pre : List Padded) (e : Padded) : List UInt8 := 91 :: pre.flatMap (fun p => p.bytes ++ [comma]) ++ e.before

def afterElement (e : Padded) (post : List Padded) : List UInt8 := e.after ++ post.flatMap (comma :: ·.bytes) ++ [93]

theorem array_eq (pre : List Padded) (e : Padded) (post : List Padded) :
    array (pre ++ e :: post) = beforeElement pre e ++ e.value ++ afterElement e post := by
  rw [array, List.map_append, List.map_cons, intercalate_middle, List.flatMap_map, List.flatMap_map, beforeElement, afterElement,
    Padded.bytes]
  simp only [List.append_assoc, List.cons_append]

/-- Where a reader of the fields of a record finds one in a value: in an object, under its name, which no other key stands for, or in
    an array of all of them, at its place. -/
inductive Field (fields : List (List UInt8)) (name : List UInt8) : (text before value after : List UInt8) → Prop where
  | member (pre post : List Member) (m : Member) (formed : ∀ o ∈ pre ++ m :: post, o.Formed)
    (values : ∀ o ∈ pre ++ m :: post, Value o.value.value) (key : Stands m.key.value name)
    (once : ∀ o ∈ pre ++ post, ¬Stands o.key.value name) :
    Field fields name (object (pre ++ m :: post)) (beforeMember pre m) m.value.value (afterMember m post)
  | element (pre post : List Padded) (e : Padded) (spaced : ∀ o ∈ pre ++ e :: post, o.Spaced)
    (values : ∀ o ∈ pre ++ e :: post, Value o.value) (place : fields[pre.length]? = some name)
    (all : (pre ++ e :: post).length = fields.length) :
    Field fields name (array (pre ++ e :: post)) (beforeElement pre e) e.value (afterElement e post)

/-- A document but for one field of a record. -/
inductive Hole (fields : List (List UInt8)) (name : List UInt8) : (JsonDoc → JsonDoc) → Prop where
  | member (pre post : List (List UInt8 × JsonDoc)) (key : List UInt8) (stands : Stands key name)
    (once : ∀ o ∈ pre ++ post, ¬Stands o.1 name) : Hole fields name fun doc => .object (pre ++ (key, doc) :: post)
  | element (pre post : List JsonDoc) (place : fields[pre.length]? = some name) (all : pre.length + 1 + post.length = fields.length) :
    Hole fields name fun doc => .array (pre ++ doc :: post)

section
variable {fields : List (List UInt8)} {name text before val after : List UInt8}

theorem Field.split (h : Field fields name text before val after) : text = before ++ val ++ after := by
  cases h with
  | member pre post m => exact object_eq pre m post
  | element pre post e => exact array_eq pre e post

theorem Field.value (h : Field fields name text before val after) : Value val := by
  cases h with
  | member pre post m _ values => exact values m (List.mem_append_right _ List.mem_cons_self)
  | element pre post e _ values => exact values e (List.mem_append_right _ List.mem_cons_self)

/-- Another value in the field's place changes only that in the document. -/
theorem Field.plug (h : Field fields name text before val after) :
    ∃ hole, Hole fields name hole ∧ ∀ other doc, Denotes other doc → Denotes (before ++ other ++ after) (hole doc) := by
  cases h with
  | member pre post m formed values key once =>
    obtain ⟨pre, rfl, preValues⟩ := exists_pairs fun o ho => (values o (List.mem_append_left _ ho)).denotes
    obtain ⟨post, rfl, postValues⟩ := exists_pairs fun o ho =>
      (values o (List.mem_append_right _ (List.mem_cons_of_mem _ ho))).denotes
    refine ⟨_, .member (pre.map fun o => (o.1.key.value, o.2)) (post.map fun o => (o.1.key.value, o.2)) m.key.value key ?_,
      fun other doc denotes => ?_⟩
    · rw [← List.map_append]
      exact List.forall_mem_map.mpr fun o ho => once o.1 (by rw [← List.map_append]; exact List.mem_map_of_mem ho)
    · let filled : Member := { m with value := { m.value with value := other } }
      have whole := Denotes.object (pre ++ (filled, doc) :: post) (fun o ho => ?_) fun o ho => ?_
      · rw [List.map_append, List.map_cons, List.map_append, List.map_cons, object_eq] at whole
        exact whole
      · rcases List.mem_append.mp ho with ho | ho
        · exact formed o.1 (List.mem_append_left _ (List.mem_map_of_mem ho))
        rcases List.mem_cons.mp ho with rfl | ho
        · have own := formed m (List.mem_append_right _ List.mem_cons_self)
          exact ⟨own.key, own.value⟩
        · exact formed o.1 (List.mem_append_right _ (List.mem_cons_of_mem _ (List.mem_map_of_mem ho)))
      · rcases List.mem_append.mp ho with ho | ho
        · exact preValues o ho
        rcases List.mem_cons.mp ho with rfl | ho
        · exact denotes
        · exact postValues o ho
  | element pre post e spaced values place all =>
    obtain ⟨pre, rfl, preValues⟩ := exists_pairs fun o ho => (values o (List.mem_append_left _ ho)).denotes
    obtain ⟨post, rfl, postValues⟩ := exists_pairs fun o ho =>
      (values o (List.mem_append_right _ (List.mem_cons_of_mem _ ho))).denotes
    simp only [List.length_append, List.length_cons, List.length_map] at place all
    refine ⟨_, .element (pre.map (·.2)) (post.map (·.2)) ?_ ?_, fun other doc denotes => ?_⟩
    · rw [List.length_map]
      exact place
    · rw [List.length_map, List.length_map]
      omega
    · have whole := Denotes.array (pre ++ ({ e with value := other }, doc) :: post) (fun o ho => ?_) fun o ho => ?_
      · rw [List.map_append, List.map_cons, List.map_append, List.map_cons, array_eq] at whole
        exact whole
      · rcases List.mem_append.mp ho with ho | ho
        · exact spaced o.1 (List.mem_append_left _ (List.mem_map_of_mem ho))
        rcases List.mem_cons.mp ho with rfl | ho
        · exact spaced e (List.mem_append_right _ List.mem_cons_self)
        · exact spaced o.1 (List.mem_append_right _ (List.mem_cons_of_mem _ (List.mem_map_of_mem ho)))
      · rcases List.mem_append.mp ho with ho | ho
        · exact preValues o ho
        rcases List.mem_cons.mp ho with rfl | ho
        · exact denotes
        · exact postValues o ho

end

end JsonText
