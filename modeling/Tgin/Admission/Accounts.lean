import Tgin.Admission.System

/-! Every update that a queue ever got is in it or has left it once: acked by its holder, evicted, purged or drained,
    and counted as such. -/

namespace Tgin.Engine
open Queue Rules
open Std (ExtTreeMap)

variable {m : Matchers}

/-- How an update leaves a queue: acked by the holder of its lease, evicted or purged unleased, or drained. -/
def Fate.Apt : Fate → Entry Envelope → Prop
  | .acked holder, e => e.heldBy holder
  | .evicted, e => e.lease = none
  | .purged, e => e.lease = none
  | .drained, _ => True

/-- What such an update counts as. -/
def Fate.reason : Fate → Option ConsumerDropReason
  | .acked _ => none
  | .evicted => some .overflow
  | .purged => some .purge
  | .drained => some .reload

/-- The updates that a trace says left for a reason. -/
def Trace.count (t : Trace) (reason : ConsumerDropReason) : Nat := t.left.countP fun d => d.fate.reason = some reason

/-- The seqs of a queue's entries. -/
def seqs (q : Inner Envelope) : List Nat := q.entries.toList.map (·.1)

theorem mem_seqs {q : Inner Envelope} {seq : Nat} : seq ∈ seqs q ↔ ∃ e, q.entries[seq]? = some e := by
  rw [← mem_entries]
  simp [seqs]

theorem seqs_nodup (q : Inner Envelope) : (seqs q).Nodup := by
  have nodup := Ordered.keys_nodup (m := q.entries) fun _ => true
  rwa [List.filter_true] at nodup

/-- The trace accounts for the slot. -/
structure Accounts (s : Slot) (t : Trace) : Prop where
  arrived : t.arrived.length = s.queue.inner.nextSeq
  held : ∀ (seq : Nat) e, s.queue.inner.entries[seq]? = some e → t.arrived[seq]? = some e.item
  left : ∀ d ∈ t.left, t.arrived[d.seq]? = some d.entry.item ∧ d.fate.Apt d.entry
  once : (t.left.map (·.seq) ++ seqs s.queue.inner).Perm (List.range t.arrived.length)
  counted : ∀ r ≠ .oversized, s.dropped r = t.count r + if r = .overflow then t.skipped else 0

/-- What one action may do to what a slot holds. -/
structure Slot.Change (fate : Fate) (skips : Nat) (s s' : Slot) : Prop where
  entries : ∀ (seq : Nat) e', s'.queue.inner.entries[seq]? = some e' →
    (∃ e, s.queue.inner.entries[seq]? = some e ∧ e'.item = e.item) ∨ seq = s.queue.inner.nextSeq
  nextSeq : s'.queue.inner.nextSeq =
    s.queue.inner.nextSeq + (s'.queue.inner.entries[s.queue.inner.nextSeq]?.map (·.item)).toList.length
  apt : ∀ x ∈ s.gone s', fate.Apt x.2
  counted : ∀ r ≠ .oversized, s'.dropped r =
    s.dropped r + (if fate.reason = some r then (s.gone s').length else 0) + if r = .overflow then skips else 0

theorem Slot.mem_gone {s s' : Slot} {x : Nat × Entry Envelope} :
    x ∈ s.gone s' ↔ s.queue.inner.entries[x.1]? = some x.2 ∧ s'.queue.inner.entries[x.1]? = none := by
  rw [gone, List.mem_filter, ExtTreeMap.mem_toList_iff_getElem?_eq_some, Option.isNone_iff_eq_none]

theorem Accounts.empty {s : Slot} (h : s.Unused) : Accounts s .empty := by
  have nothing : s.queue.inner.entries.toList = [] := by rw [h.entries]; exact ExtTreeMap.toList_eq_nil_iff.mpr rfl
  refine ⟨h.nextSeq.symm, fun seq e he => ?_, nofun, ?_, fun r _ => ?_⟩
  · rw [h.entries] at he
    simp at he
  · rw [seqs, nothing]
    exact .nil
  · rw [h.dropped]
    simp [Trace.count, Trace.empty]

/-- What leaves and what stays or is new is what was there and what is new. -/
theorem Slot.Change.perm {s s' : Slot} {fate : Fate} {skips : Nat} (h : s.Change fate skips s') (exact : Exact s.queue.inner) :
    ((s.gone s').map (·.1) ++ seqs s'.queue.inner).Perm
      (seqs s.queue.inner ++ (s'.queue.inner.entries[s.queue.inner.nextSeq]?.map fun _ => s.queue.inner.nextSeq).toList) := by
  have fresh {seq : Nat} (hs : seq ∈ seqs s.queue.inner) : seq ≠ s.queue.inner.nextSeq :=
    Nat.ne_of_lt (exact.fresh seq (mem_entries.mpr (mem_seqs.mp hs)))
  have mem_gone {seq : Nat} : seq ∈ (s.gone s').map (·.1) ↔ seq ∈ seqs s.queue.inner ∧ seq ∉ seqs s'.queue.inner := by
    simp only [List.mem_map, Slot.mem_gone, mem_seqs, Prod.exists, exists_and_right, exists_eq_right, not_exists,
      Option.eq_none_iff_forall_ne_some, ne_eq]
  refine (List.perm_ext_iff_of_nodup ?_ ?_).mpr fun seq => ?_
  · refine List.nodup_append.mpr ⟨?_, seqs_nodup _, ?_⟩
    · exact (seqs_nodup s.queue.inner).sublist (List.filter_sublist.map _)
    · rintro a ha b hb rfl
      exact (mem_gone.mp ha).2 hb
  · refine List.nodup_append.mpr ⟨seqs_nodup _, ?_, ?_⟩
    · cases s'.queue.inner.entries[s.queue.inner.nextSeq]? <;> simp
    · rintro a ha b hb rfl
      simp only [Option.mem_toList, Option.map_eq_some_iff] at hb
      obtain ⟨-, -, hb⟩ := hb
      exact fresh ha hb.symm
  · rw [List.mem_append, List.mem_append, mem_gone]
    by_cases new : seq = s.queue.inner.nextSeq
    · subst new
      have old : s.queue.inner.nextSeq ∉ seqs s.queue.inner := fun hs => fresh hs rfl
      simp [old, mem_seqs]
    · have back (hs : seq ∈ seqs s'.queue.inner) : seq ∈ seqs s.queue.inner := by
        obtain ⟨e', he'⟩ := mem_seqs.mp hs
        rcases h.entries seq e' he' with ⟨e, he, -⟩ | heq
        · exact mem_seqs.mpr ⟨e, he⟩
        · exact absurd heq new
      have notNew : seq ∉ (s'.queue.inner.entries[s.queue.inner.nextSeq]?.map fun _ => s.queue.inner.nextSeq).toList := by
        simp [Ne.symm new]
      by_cases here : seq ∈ seqs s'.queue.inner
      · simp [here, back here]
      · simp [here, notNew]

/-- Noting an action keeps the accounts. -/
theorem Accounts.note {s s' : Slot} {t : Trace} {fate : Fate} {skips : Nat} (h : Accounts s t)
    (exact : Exact s.queue.inner) (change : s.Change fate skips s') : Accounts s' (t.note fate skips s s') := by
  have perm := change.perm exact
  obtain ⟨entries, nextSeq, apt, counted⟩ := change
  refine ⟨?_, fun seq e' he' => ?_, fun d hd => ?_, ?_, fun r hr => ?_⟩
  · rw [Trace.note, List.length_append, h.arrived, nextSeq]
  · rcases entries seq e' he' with ⟨e, he, item⟩ | rfl
    · have old := h.held seq e he
      rw [item, ← old]
      exact List.getElem?_append_left (List.getElem?_eq_some_iff.mp old).1
    · rw [Trace.note, he', ← h.arrived]
      simp
  · rcases List.mem_append.mp hd with hd | hd
    · obtain ⟨old, hapt⟩ := h.left d hd
      refine ⟨?_, hapt⟩
      rw [← old]
      exact List.getElem?_append_left (List.getElem?_eq_some_iff.mp old).1
    · obtain ⟨x, hx, rfl⟩ := List.mem_map.mp hd
      have old := h.held x.1 x.2 (Slot.mem_gone.mp hx).1
      refine ⟨?_, apt x hx⟩
      rw [← old]
      exact List.getElem?_append_left (List.getElem?_eq_some_iff.mp old).1
  · have length : (t.note fate skips s s').arrived.length = t.arrived.length +
        (s'.queue.inner.entries[s.queue.inner.nextSeq]?.map fun _ => s.queue.inner.nextSeq).toList.length := by
      rw [Trace.note, List.length_append]
      cases s'.queue.inner.entries[s.queue.inner.nextSeq]? <;> rfl
    have left : (t.note fate skips s s').left.map (·.seq) = t.left.map (·.seq) ++ (s.gone s').map (·.1) := by
      rw [Trace.note, List.map_append, List.map_map]
      rfl
    rw [left, length, List.append_assoc]
    refine ((perm.append_left _).trans ?_)
    rw [← List.append_assoc]
    refine (h.once.append_right _).trans (.of_eq ?_)
    rw [← h.arrived]
    cases s'.queue.inner.entries[t.arrived.length]? with
    | none => simp
    | some e => exact List.range_succ.symm
  · have count : (t.note fate skips s s').count r = t.count r + if fate.reason = some r then (s.gone s').length else 0 := by
      rw [Trace.note, Trace.count, List.countP_append, List.countP_map]
      refine congrArg (t.count r + ·) ?_
      by_cases hfate : fate.reason = some r
      · simp [hfate]
      · simp [hfate]
    have skipped : (t.note fate skips s s').skipped = t.skipped + skips := rfl
    rw [counted r hr, h.counted r hr, count, skipped]
    split <;> omega

/-! ### What each action does -/

/-- The next seq is not taken. -/
theorem fresh_none {q : Inner Envelope} (exact : Exact q) : q.entries[q.nextSeq]? = none := by
  cases h : q.entries[q.nextSeq]? with
  | none => rfl
  | some e => exact absurd (exact.fresh _ (mem_entries.mpr ⟨e, h⟩)) (Nat.lt_irrefl _)

/-- An action that adds nothing. -/
theorem Slot.Change.of_entries {s s' : Slot} {fate : Fate} {skips : Nat} (exact : Exact s.queue.inner)
    (entries : ∀ (seq : Nat) e', s'.queue.inner.entries[seq]? = some e' →
      ∃ e, s.queue.inner.entries[seq]? = some e ∧ e'.item = e.item)
    (nextSeq : s'.queue.inner.nextSeq = s.queue.inner.nextSeq) (apt : ∀ x ∈ s.gone s', fate.Apt x.2)
    (counted : ∀ r ≠ .oversized, s'.dropped r =
      s.dropped r + (if fate.reason = some r then (s.gone s').length else 0) + if r = .overflow then skips else 0) :
    s.Change fate skips s' := by
  refine ⟨fun seq e' he' => .inl (entries seq e' he'), ?_, apt, counted⟩
  cases h : s'.queue.inner.entries[s.queue.inner.nextSeq]? with
  | none => exact nextSeq
  | some e' =>
    obtain ⟨e, he, -⟩ := entries _ e' h
    rw [fresh_none exact] at he
    cases he

/-- Nothing leaves where all entries stay. -/
theorem Slot.gone_eq_nil {s s' : Slot} (h : ∀ (seq : Nat) e, s.queue.inner.entries[seq]? = some e →
    s'.queue.inner.entries[seq]? ≠ none) : s.gone s' = [] :=
  List.eq_nil_iff_forall_not_mem.mpr fun x hx => h x.1 x.2 (Slot.mem_gone.mp hx).1 (Slot.mem_gone.mp hx).2

/-- An action on a slot that holds the same updates: it counts only what it skips. -/
theorem Slot.Change.of_same {s s' : Slot} (exact : Exact s.queue.inner)
    (entries : s'.queue.inner.entries = s.queue.inner.entries) (nextSeq : s'.queue.inner.nextSeq = s.queue.inner.nextSeq)
    (fate : Fate) {skips : Nat}
    (counted : ∀ r ≠ .oversized, s'.dropped r = s.dropped r + if r = .overflow then skips else 0) :
    s.Change fate skips s' := by
  have gone : s.gone s' = [] := Slot.gone_eq_nil fun seq e he => by
    rw [entries, he]
    exact Option.some_ne_none e
  refine .of_entries exact (fun seq e' he' => ⟨e', entries ▸ he', rfl⟩) nextSeq (by rw [gone]; nofun) fun r hr => ?_
  rw [gone, counted r hr]
  simp

theorem Slot.Holds.change {s s' : Slot} (h : s.Holds s') (exact : Exact s.queue.inner) (fate : Fate) :
    s.Change fate 0 s' := .of_same exact h.entries h.nextSeq fate fun r _ => by simp [h.dropped]

/-- The last drain, or a late one. -/
theorem Slot.drainLate_change {s : Slot} (exact : Exact s.queue.inner) : s.Change .drained 0 s.drainLate := by
  have empty : s.drainLate.queue.inner.entries = ∅ := rfl
  have gone : s.gone s.drainLate = s.queue.inner.entries.toList :=
    List.filter_eq_self.mpr fun x _ => by simp [empty]
  refine .of_entries exact (fun seq e' he' => ?_) rfl (fun _ _ => trivial) fun r hr => ?_
  · rw [empty] at he'
    simp at he'
  · rw [gone]
    by_cases reload : r = .reload
    · subst reload
      refine (Slot.count_self ..).trans ?_
      simp [Fate.reason]
    · refine (Slot.count_of_ne reload ..).trans ?_
      simp [Fate.reason, Ne.symm reload]

/-- What an admission does to a slot. -/
theorem Slot.Effect.change {update : Update} {now : Instant} {commits : Prop} {s s' : Slot} {fate : Fate} {skips : Nat}
    (h : s.Effect update now commits fate skips s') (exact : Exact s.queue.inner) : s.Change fate skips s' := by
  cases h with
  | same => exact (Slot.Holds.refl s).change exact fate
  | @reserved n inner reservations removed le =>
    set s' := Slot.overflowed { s with queue := { s.queue with inner, reservations } } n with hs'
    have stays (seq : Nat) : s'.queue.inner.entries[seq]? =
        if seq ∈ s.queue.inner.available.toList.take n then none else s.queue.inner.entries[seq]? := removed.entries seq
    have unleased {seq : Nat} (h : seq ∈ s.queue.inner.available.toList.take n) :
        ∃ e, s.queue.inner.entries[seq]? = some e ∧ e.lease = none :=
      (exact.indexes.available seq).mp (Std.ExtTreeSet.mem_toList.mp (List.mem_of_mem_take h))
    have gone : s.queue.inner.available.toList.take n = (s.gone s').map (·.1) := by
      refine Ordered.keys_unique (Std.ExtTreeSet.ordered_toList.sublist (List.take_sublist ..)) fun seq => ?_
      simp only [Option.isNone_iff_eq_none, stays]
      constructor
      · intro h
        obtain ⟨e, he, -⟩ := unleased h
        exact ⟨e, he, if_pos h⟩
      · rintro ⟨e, he, gone⟩
        by_contra h
        rw [if_neg h, he] at gone
        cases gone
    have length : (s.gone s').length = n := by
      rw [← List.length_map (·.1), ← gone, List.length_take, Nat.min_eq_left le]
    refine .of_entries exact (fun seq e' he' => ?_) removed.nextSeq (fun x hx => ?_) fun r hr => ?_
    · rw [stays] at he'
      split at he'
      · cases he'
      · exact ⟨e', he', rfl⟩
    · obtain ⟨e, he, lease⟩ := unleased (gone ▸ List.mem_map_of_mem hx)
      rw [(Slot.mem_gone.mp hx).1, Option.some.injEq] at he
      exact he ▸ lease
    · rw [length]
      by_cases overflow : r = .overflow
      · subst overflow
        exact Slot.count_self ..
      · simp only [Fate.reason, Option.some.injEq, Ne.symm overflow, overflow, if_false]
        exact Slot.count_of_ne overflow ..
  | oversized =>
    refine .of_same exact ?_ ?_ fate fun r hr => ?_
    · rfl
    · rfl
    · rw [Slot.count_of_ne hr, ite_self, Nat.add_zero]
  | skipped reservations =>
    refine .of_same exact ?_ ?_ fate fun r hr => ?_
    · rfl
    · rfl
    · by_cases overflow : r = .overflow
      · subst overflow
        exact Slot.count_self ..
      · rw [if_neg overflow]
        exact Slot.count_of_ne overflow ..
  | released permit =>
    refine .of_same exact ?_ ?_ fate fun r hr => ?_
    · rfl
    · rfl
    · rw [ite_self]
      rfl
  | @committed fate _ inner reservations notified exact' size entries nextSeq =>
    have gone : s.gone { s with queue := { s.queue with inner, reservations, notified } } = [] :=
      Slot.gone_eq_nil fun seq e he => by
        have ne : seq ≠ s.queue.inner.nextSeq := by
          rintro rfl
          rw [fresh_none exact] at he
          cases he
        change inner.entries[seq]? ≠ none
        rw [entries, Ordered.getElem?_insert_of_ne ne, he]
        exact Option.some_ne_none e
    refine ⟨fun seq e' he' => ?_, ?_, by rw [gone]; nofun, fun r _ => by rw [gone]; simp⟩
    · by_cases new : seq = s.queue.inner.nextSeq
      · exact .inr new
      · change inner.entries[seq]? = some e' at he'
        rw [entries, Ordered.getElem?_insert_of_ne new] at he'
        exact .inl ⟨e', he', rfl⟩
    · change inner.nextSeq = _ + (inner.entries[_]?.map _).toList.length
      rw [nextSeq, entries, ExtTreeMap.getElem?_insert_self]
      rfl
  | drained closed => exact Slot.drainLate_change exact

theorem fateOf_apt (op : Op Envelope) {x : Nat × Entry Envelope} (h : op.removes x = true) : (fateOf op).Apt x.2 := by
  cases op with
  | ackBelow holder ackId => exact (Bool.and_eq_true_iff.mp h).1
  | ackAll holder => exact h
  | ackSeq holder seq => exact (Bool.and_eq_true_iff.mp h).2
  | purge => exact Option.isNone_iff_eq_none.mp h
  | purgeWhere pred => exact Option.isNone_iff_eq_none.mp (Bool.and_eq_true_iff.mp h).1
  | _ => cases h

/-- What leaves by a call that does not count it was acked. -/
theorem fateOf_reason (op : Op Envelope) : (fateOf op).reason = (if op.purges then some .purge else none) ∨
    op.removes = fun _ => false := by
  cases op with
  | ackBelow | ackAll | ackSeq | purge | purgeWhere => exact .inl rfl
  | _ => exact .inr rfl

/-- What a consumer's call does to a slot. -/
theorem Slot.consume_change {s : Slot} (exact : Exact s.queue.inner) (op : Op Envelope) :
    s.Change (fateOf op) 0 (s.consume op) := by
  rcases Slot.consume_cases exact op with hs | ⟨-, queue, consumed, hs⟩
  · rw [hs]
    exact (Slot.Holds.refl s).change exact _
  · have hq : (s.consume op).queue = queue := by rw [hs]; split <;> rfl
    have gone : s.gone (s.consume op) = s.queue.inner.entries.toList.filter op.removes := by
      refine List.filter_congr fun x hx => ?_
      rw [Bool.eq_iff_iff, Option.isNone_iff_eq_none, hq]
      exact consumed.none_iff (mem_toList.mp hx)
    refine .of_entries exact (fun seq e' he' => ?_) (hq ▸ consumed.nextSeq) (fun x hx => ?_) fun r hr => ?_
    · obtain ⟨e, he, -, item⟩ := consumed.getElem? (hq ▸ he')
      exact ⟨e, he, item⟩
    · rw [gone] at hx
      exact fateOf_apt op (List.mem_filter.mp hx).2
    · rw [gone, ite_self, Nat.add_zero, hs]
      rcases fateOf_reason op with reason | nothing
      · rw [reason]
        split
        · by_cases purge : r = .purge
          · subst purge
            rw [if_pos rfl]
            exact Slot.count_self ..
          · rw [if_neg (by simpa using Ne.symm purge)]
            exact Slot.count_of_ne purge ..
        · rfl
      · rw [nothing, List.filter_false, List.length_nil, ite_self, Nat.add_zero]
        split
        · by_cases purge : r = .purge
          · subst purge
            exact Slot.count_self ..
          · exact Slot.count_of_ne purge ..
        · rfl

namespace System

/-- What an action does to each slot. -/
theorem act_change {sys : System m} (h : sys.Sound) (action : Action) (i : Nat) :
    (sys.slots i).Change (sys.fate action) (sys.skips action i) ((sys.act action).slots i) := by
  have exact := h.shared.exact
  have same (fate : Fate) : (sys.slots i).Change fate 0 (sys.slots i) := (Slot.Holds.refl _).change (exact i) fate
  have modify {slot : Nat} {f : Slot → Slot} {fate : Fate} (change : (sys.slots slot).Change fate 0 (f (sys.slots slot))) :
      (sys.slots i).Change fate 0 ((sys.world.modify slot f).slots i) := by
    rw [World.modify_slots]
    by_cases hi : i = slot
    · subst hi
      rwa [Function.update_self]
    · rw [Function.update_of_ne hi]
      exact same fate
  cases action with
  | begin update => exact same _
  | step j clock =>
    simp only [act, fate, skips]
    cases sys.admissions[j]? with
    | none => exact same _
    | some a => exact (a.step_effect clock exact i).change (exact i)
  | control control =>
    obtain ⟨-, closes, leaves, -⟩ := control_leaves h.shared control
    exact (leaves.slots i).change (exact i) _
  | drain slot =>
    simp only [act]
    split
    · exact modify (Slot.drainLate_change (exact slot))
    · exact same _
  | consume slot op =>
    simp only [act]
    split
    · exact modify (Slot.consume_change (exact slot) op)
    · exact same _

/-- The traces of every slot account for it. -/
def Accounted (sys : System m) : Prop := ∀ i, Accounts (sys.slots i) (sys.traces i)

theorem accounted_step {sys : System m} (h : sys.Sound) (accounted : sys.Accounted) (action : Action) :
    (sys.step action).Accounted :=
  fun i => (accounted i).note (h.shared.exact i) (act_change h action i)

end System

end Tgin.Engine
