import Tgin.LocalFiles.Delimiter

/-! The search for a delimiter in a body that comes frame by frame: `Delimiter.step` for each byte, as the scan feeds them,
    until one completes it. Where the frames are cut does not matter. -/

namespace Tgin.LocalFiles

structure Search where
  delimiter : Delimiter
  /-- What is known to be content. -/
  content : Bytes
  /-- Bytes read. -/
  read : Nat
  /-- How many had been read when the delimiter was reported. -/
  found : Option Nat
  deriving DecidableEq, Repr

namespace Search

def new (d : Delimiter) : Search where
  delimiter := d
  content := []
  read := 0
  found := none

def byte (s : Search) (b : UInt8) : Option Search := do
  let (delimiter, content, ended) ← s.delimiter.step b
  some { delimiter
         content := s.content ++ content
         read := s.read + 1
         found := if ended then some (s.read + 1) else none }

/-- The next frame. Where the scan `skips`, it passes over the bytes that cannot begin the delimiter; they are content. -/
def feed (skips : Bool) (s : Search) (data : Bytes) : Option Search :=
  if s.found.isSome then some s
  else
    let n := if skips then s.delimiter.skippable data else 0
    let s := { s with content := s.content ++ data.take n, read := s.read + n }
    match _h : data.drop n with
    | [] => some s
    | b :: rest => s.byte b >>= fun s => s.feed skips rest
  termination_by data.length
  decreasing_by
    have := congrArg List.length _h
    rw [List.length_drop, List.length_cons] at this
    omega

/-- What is right of a search for `word` by `d`, once `text` has been fed. -/
structure Right (d : Delimiter) (word text : Bytes) (s : Search) : Prop where
  searching : s.found = none → ¬word <:+: text ∧ s.read = text.length ∧ s.delimiter.Reads word text s.content ∧
    ∃ n, s.delimiter = { d with matched := n }
  reported : ∀ n, s.found = some n → ∃ i, n = i + word.length ∧ n ≤ text.length ∧ Kmp.Leftmost word text i ∧
    s.content = text.take i ∧ s.delimiter = d

variable {d : Delimiter} {word text : Bytes} {s : Search}

theorem new_right (h : d.Searches word) (fresh : d.matched = 0) : (new d).Right d word [] := by
  refine ⟨fun _ => ⟨fun found => ?_, rfl, h.reads fresh, 0, ?_⟩, nofun⟩
  · have := h.matched
    rw [List.eq_nil_of_infix_nil found] at this
    exact absurd this (Nat.not_lt_zero _)
  · rw [← fresh]
    rfl

/-- Once the delimiter is reported, the rest of the text is not read. -/
theorem Right.append {n : Nat} (h : s.Right d word text) (found : s.found = some n) (rest : Bytes) :
    s.Right d word (text ++ rest) := by
  refine ⟨fun none => ?_, fun m hm => ?_⟩
  · rw [found] at none
    cases none
  · obtain ⟨i, rfl, le, leftmost, content, back⟩ := h.reported m hm
    refine ⟨i, rfl, ?_, leftmost.append rest le, ?_, back⟩
    · rw [List.length_append]
      omega
    · rw [content, List.take_append_of_le_length (by omega)]

theorem Right.byte (h : s.Right d word text) (fresh : d.matched = 0) (searching : s.found = none) (b : UInt8) :
    ∃ s', s.byte b = some s' ∧ s'.Right d word (text ++ [b]) := by
  obtain ⟨absent, read, reads, m, same⟩ := h.searching searching
  obtain ⟨⟨d', content, ended⟩, step, stepped⟩ := reads.step b
  obtain ⟨m', same'⟩ := Delimiter.step_matched step
  have same : d' = { d with matched := m' } := by
    dsimp only at same'
    rw [same', same]
  have length : (text ++ [b]).length = s.read + 1 := by rw [List.length_append, List.length_singleton, read]
  refine ⟨_, by rw [Search.byte, step]; rfl, ?_⟩
  cases ended with
  | true =>
    obtain ⟨-, back, -, whole⟩ := stepped.ended rfl
    refine ⟨nofun, fun n hn => ⟨(s.content ++ content).length, ?_, ?_, Kmp.leftmost_concat absent whole, ?_, ?_⟩⟩
    · rw [← Option.some.inj hn, ← length, ← whole, List.length_append]
    · rw [← Option.some.inj hn, length]
    · rw [← whole, List.take_left]
    · dsimp only at back same ⊢
      rw [same] at back ⊢
      dsimp only at back
      rw [back, ← fresh]
  | false =>
    obtain ⟨not_ended, reads⟩ := stepped.goes_on rfl
    refine ⟨fun _ => ⟨?_, length.symm, reads, m', same⟩, nofun⟩
    rw [List.infix_concat_iff, not_or]
    exact ⟨not_ended, absent⟩

/-- A byte that cannot begin the delimiter, fed or passed over. -/
theorem byte_other (h : s.delimiter.Searches word) (fresh : s.delimiter.matched = 0) (searching : s.found = none) {b : UInt8}
    (other : s.delimiter.pattern[0]? ≠ some b) : s.byte b = some { s with content := s.content ++ [b], read := s.read + 1 } := by
  rw [byte, h.step_other fresh other]
  simp only [Option.bind_eq_bind, Option.bind_some, Bool.false_eq_true, if_false, ← searching]

theorem Right.skip {skipped : Bytes} : ∀ {text : Bytes} {s : Search}, s.Right d word text → d.matched = 0 → s.found = none →
    s.delimiter.matched = 0 → (∀ b ∈ skipped, s.delimiter.pattern[0]? ≠ some b) →
    Right d word (text ++ skipped) { s with content := s.content ++ skipped, read := s.read + skipped.length } := by
  induction skipped with
  | nil =>
    intro text s h _ _ _ _
    simpa using h
  | cons b skipped ih =>
    intro text s h start searching fresh other
    obtain ⟨s', byte, right⟩ := h.byte start searching b
    rw [byte_other (h.searching searching).2.2.1.searches fresh searching (other b (List.mem_cons_self ..))] at byte
    obtain rfl := Option.some.inj byte
    have rest := ih right start searching fresh fun c hc => other c (List.mem_cons_of_mem _ hc)
    rwa [List.append_assoc, List.append_assoc, Nat.add_assoc, Nat.add_comm 1] at rest

/-- None of the bytes passed over begins the delimiter. -/
theorem skippable_other {d : Delimiter} {data : Bytes} (h : 0 < d.skippable data) :
    d.matched = 0 ∧ ∀ b ∈ data.take (d.skippable data), d.pattern[0]? ≠ some b := by
  unfold Delimiter.skippable at h ⊢
  by_cases pos : 0 < d.matched
  · rw [if_pos pos] at h
    exact absurd h (Nat.lt_irrefl 0)
  · refine ⟨Nat.eq_zero_of_not_pos pos, ?_⟩
    rw [if_neg pos]
    intro b hb begins
    obtain ⟨j, hj, rfl⟩ := List.mem_take_iff_getElem.mp hb
    cases first : data.findIdx? fun b => decide (d.pattern[0]? = some b) with
    | none => exact absurd (decide_eq_true begins) (by simpa using List.findIdx?_eq_none_iff.mp first _ (List.getElem_mem _))
    | some i =>
      rw [first, Option.getD_some] at hj
      exact absurd (decide_eq_true begins) ((List.findIdx?_eq_some_iff_getElem.mp first).2.2 j (by omega))

theorem skippable_le (d : Delimiter) (data : Bytes) : d.skippable data ≤ data.length := by
  unfold Delimiter.skippable
  split
  · exact Nat.zero_le _
  · cases first : data.findIdx? fun b => decide (d.pattern[0]? = some b) with
    | none => exact Nat.le_refl _
    | some i => exact Nat.le_of_lt (List.findIdx?_eq_some_iff_getElem.mp first).1

/-- What the scan passes over before the next byte. -/
theorem Right.pass (skips : Bool) (h : s.Right d word text) (fresh : d.matched = 0) (searching : s.found = none) (data : Bytes)
    {n : Nat} (hn : n = if skips then s.delimiter.skippable data else 0) :
    Right d word (text ++ data.take n) { s with content := s.content ++ data.take n, read := s.read + n } := by
  have le : n ≤ data.length := by
    rw [hn]
    split
    · exact skippable_le s.delimiter data
    · exact Nat.zero_le _
  rcases Nat.eq_zero_or_pos n with zero | pos
  · rw [zero]
    simpa using h
  · have length : (data.take n).length = n := by rw [List.length_take, Nat.min_eq_left le]
    cases skips with
    | false => exact absurd hn (Nat.ne_of_gt pos)
    | true =>
      rw [if_pos rfl] at hn
      obtain ⟨unmatched, other⟩ := skippable_other (hn ▸ pos)
      have right := h.skip fresh searching unmatched (hn ▸ other)
      rwa [length] at right

theorem Right.feed (skips : Bool) (fresh : d.matched = 0) (data : Bytes) : ∀ {text : Bytes} {s : Search}, s.Right d word text →
    ∃ s', s.feed skips data = some s' ∧ s'.Right d word (text ++ data) := by
  induction length : data.length using Nat.strongRecOn generalizing data with
  | _ length' ih =>
    subst length
    intro text s h
    rw [Search.feed]
    cases found : s.found with
    | some n => exact ⟨s, rfl, h.append found data⟩
    | none =>
      rw [if_neg (by simp)]
      dsimp only
      generalize hn : (if skips = true then s.delimiter.skippable data else 0) = n
      have right := h.pass skips fresh found data hn.symm
      split
      · rename_i all
        rw [List.drop_eq_nil_iff] at all
        rw [List.take_of_length_le all] at right ⊢
        exact ⟨_, rfl, found ▸ right⟩
      · rename_i b rest cut
        have shorter : rest.length < data.length := by
          have := congrArg List.length cut
          rw [List.length_drop, List.length_cons] at this
          omega
        obtain ⟨s', byte, right⟩ := right.byte fresh found b
        obtain ⟨s'', feed, right⟩ := ih rest.length shorter rest rfl right
        rw [found] at byte
        refine ⟨s'', ?_, ?_⟩
        · rw [byte]
          exact feed
        · rwa [List.append_assoc, List.append_assoc, List.singleton_append, ← cut, List.take_append_drop] at right

theorem Right.feeds (skips : Bool) (feeds : List Bytes) : ∀ {text : Bytes} {s : Search}, s.Right d word text → d.matched = 0 →
    ∃ s', feeds.foldlM (Search.feed skips) s = some s' ∧ s'.Right d word (text ++ feeds.flatten) := by
  induction feeds with
  | nil =>
    intro text s h _
    exact ⟨s, rfl, by rwa [List.flatten_nil, List.append_nil]⟩
  | cons data feeds ih =>
    intro text s h fresh
    obtain ⟨s', feed, right⟩ := h.feed skips fresh data
    obtain ⟨s'', rest, right⟩ := ih right fresh
    refine ⟨s'', ?_, ?_⟩
    · rw [List.foldlM_cons, feed]
      exact rest
    · rwa [List.flatten_cons, ← List.append_assoc]

/-- Wherever the frames are cut, the delimiter is reported where it first occurs in the body, after the bytes before it and no
    others, and the next search starts afresh. No index leaves its table. -/
theorem finds_leftmost {start boundary : Bytes} (pos : 0 < start.length + boundary.length)
    (max : start.length + boundary.length ≤ MAX_DELIMITER_LEN) (skips : Bool) (feeds : List Bytes) :
    ∃ d s, Delimiter.new start boundary = some d ∧ feeds.foldlM (feed skips) (new d) = some s ∧
      (∀ n, s.found = some n ↔ ∃ i, n = i + (start ++ boundary).length ∧ Kmp.Leftmost (start ++ boundary) feeds.flatten i) ∧
      (∀ i, Kmp.Leftmost (start ++ boundary) feeds.flatten i → s.content = feeds.flatten.take i ∧ s.delimiter = d) ∧
      (¬start ++ boundary <:+: feeds.flatten →
        s.found = none ∧ s.content ++ (start ++ boundary).take s.delimiter.matched = feeds.flatten) := by
  obtain ⟨d, new, searches, fresh⟩ := Delimiter.new_searches pos max
  obtain ⟨s, run, right⟩ := (new_right searches fresh).feeds skips feeds fresh
  rw [List.nil_append] at right
  -- an occurrence has been reported, and the first one is the one reported
  have reported {i : Nat} (leftmost : Kmp.Leftmost (start ++ boundary) feeds.flatten i) :
      s.found = some (i + (start ++ boundary).length) ∧ s.content = feeds.flatten.take i ∧ s.delimiter = d := by
    cases found : s.found with
    | none => exact absurd (Kmp.infix_of_prefix_drop leftmost.1) (right.searching found).1
    | some n =>
      obtain ⟨i', rfl, -, leftmost', rest⟩ := right.reported n found
      obtain rfl := leftmost.eq leftmost'
      exact ⟨rfl, rest⟩
  refine ⟨d, s, new, run, fun n => ⟨fun found => ?_, ?_⟩, fun i leftmost => (reported leftmost).2, fun absent => ?_⟩
  · obtain ⟨i, hn, -, leftmost, -⟩ := right.reported n found
    exact ⟨i, hn, leftmost⟩
  · rintro ⟨i, rfl, leftmost⟩
    exact (reported leftmost).1
  · have none : s.found = none := by
      cases found : s.found with
      | none => rfl
      | some n =>
        obtain ⟨i, -, -, leftmost, -⟩ := right.reported n found
        exact absurd (Kmp.infix_of_prefix_drop leftmost.1) absent
    exact ⟨none, (right.searching none).2.2.1.content⟩

/-- `x----ax` cut between its dashes, the first of which is not of the delimiter `---a`. -/
theorem finds_overlapping : ∃ d s, Delimiter.new [45, 45] [45, 97] = some d ∧
    [[120, 45, 45], [45], [45, 97, 120]].foldlM (feed true) (new d) = some s ∧ s.found = some 6 ∧
    s.content = [120, 45] ∧ s.delimiter = d := by
  obtain ⟨d, s, new, run, found, content, -⟩ :=
    @finds_leftmost [45, 45] [45, 97] (by decide) (by decide) true [[120, 45, 45], [45], [45, 97, 120]]
  have leftmost : Kmp.Leftmost (([45, 45] : Bytes) ++ [45, 97]) [[120, 45, 45], [45], [45, 97, 120]].flatten 2 := by
    unfold Kmp.Leftmost
    decide
  exact ⟨d, s, new, run, (found 6).mpr ⟨2, rfl, leftmost⟩, content 2 leftmost⟩

end Search

end Tgin.LocalFiles
