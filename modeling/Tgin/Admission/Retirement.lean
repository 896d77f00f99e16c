import Tgin.Admission.Accounts

/-! A retired queue ends up empty: what an admission commits to it after its last drain, the admission drains itself. -/

namespace Tgin.Engine
open Queue Rules
open Std (ExtTreeMap)

variable {m : Matchers}

def Slot.Empty (s : Slot) : Prop := s.queue.inner.entries = ∅

theorem Slot.empty_iff {s : Slot} : s.Empty ↔ ∀ seq : Nat, s.queue.inner.entries[seq]? = none := by
  constructor
  · intro h seq
    rw [show s.queue.inner.entries = ∅ from h, ExtTreeMap.getElem?_empty]
  · intro h
    refine ExtTreeMap.ext_getElem? fun seq => ?_
    rw [h, ExtTreeMap.getElem?_empty]

/-- An admission has just queued its update to the slot and has not looked yet whether it was closed. -/
def Pc.Committed (slot : Nat) : Pc m → Prop
  | .committed target _ => target.slot = slot
  | _ => False

def Pc.Finished : Pc m → Prop
  | .done _ => True
  | _ => False

instance : (pc : Pc m) → Decidable pc.Finished
  | .done _ => .isTrue trivial
  | .load | .route _ | .visit .. | .reserve .. | .reserving .. | .cancel .. | .commit _ | .committed .. => .isFalse id

theorem Pc.Committed.targets {slot : Nat} {pc : Pc m} (h : pc.Committed slot) : ∃ t ∈ pc.targets, t.slot = slot := by
  cases pc with
  | committed target permits => exact ⟨target, List.mem_cons_self, h⟩
  | _ => cases h

theorem Pc.Finished.not_committed {slot : Nat} {pc : Pc m} (h : pc.Finished) : ¬pc.Committed slot := by
  cases pc with
  | done outcome => exact id
  | _ => cases h

/-- What an admission that does not commit to a slot leaves of it. -/
theorem Slot.Effect.empty {update : Update} {now : Instant} {commits : Prop} {s s' : Slot} {fate : Fate} {skips : Nat}
    (h : s.Effect update now commits fate skips s') (not : ¬commits) (empty : s.Empty) : s'.Empty := by
  cases h with
  | reserved reservations removed =>
    rw [Slot.empty_iff] at empty ⊢
    intro seq
    refine (removed.entries seq).trans ?_
    rw [empty, ite_self]
  | committed h => exact absurd h not
  | drained closed => rfl
  | same | oversized | skipped | released => exact empty

theorem Slot.consume_empty {s : Slot} (exact : Exact s.queue.inner) (empty : s.Empty) (op : Op Envelope) :
    (s.consume op).Empty := by
  rcases Slot.consume_cases exact op with hs | ⟨-, queue, consumed, hs⟩
  · rwa [hs]
  · have hq : (s.consume op).queue = queue := by rw [hs]; split <;> rfl
    refine Slot.empty_iff.mpr fun seq => ?_
    rw [hq]
    cases he' : queue.inner.entries[seq]? with
    | none => rfl
    | some e' =>
      obtain ⟨e, he, -⟩ := consumed.getElem? he'
      rw [Slot.empty_iff.mp empty] at he
      cases he

/-- A closed slot gets an update only from an admission that then looks at it again, and leaves it empty. -/
theorem Admission.step_closed (a : Admission m) (clock : Instant) {world : World m}
    (exact : ∀ i, Exact (world.slots i).queue.inner) {i : Nat} (closed : (world.slots i).closed = true)
    (holds : ¬((a.step clock world).2.slots i).Empty) :
    (a.step clock world).1.pc.Committed i ∨ ¬(world.slots i).Empty ∧ ¬a.pc.Committed i := by
  by_cases commits : a.pc.Commits i
  · left
    cases hpc : a.pc with
    | commit permits =>
      rw [hpc] at commits
      rcases permits with _ | ⟨⟨target, permit⟩, permits⟩
      · cases commits
      · simp only [step, hpc]
        split <;> exact commits
    | _ => simp only [hpc, Pc.Commits] at commits
  · refine .inr ⟨fun empty => holds ((a.step_effect clock exact i).empty commits empty), fun committed => holds ?_⟩
    cases hpc : a.pc with
    | committed target permits =>
      rw [hpc] at committed
      obtain rfl : target.slot = i := committed
      simp only [step, hpc, if_pos closed]
      rw [World.modify_slots, Function.update_self]
      rfl
    | _ => simp only [hpc, Pc.Committed] at committed

namespace System

/-- A closed slot is empty, or its last drain is to come, or an admission is about to look at it. -/
def Settled (sys : System m) : Prop :=
  ∀ i, (sys.slots i).closed = true → (sys.slots i).Empty ∨ i ∈ sys.closing ∨ ∃ a ∈ sys.admissions, a.pc.Committed i

theorem settled_act {sys : System m} (h : sys.Sound) (settled : sys.Settled) (action : Action) : (sys.act action).Settled := by
  intro i closed
  cases action with
  | begin update =>
    refine (settled i closed).imp_right (.imp_right ?_)
    rintro ⟨a, ha, committed⟩
    exact ⟨a, List.mem_append_left _ ha, committed⟩
  | step j clock =>
    simp only [act] at closed ⊢
    cases hj : sys.admissions[j]? with
    | none =>
      rw [hj] at closed
      exact settled i closed
    | some a =>
      rw [hj] at closed
      have effect := a.step_effect clock h.shared.exact i
      have before : (sys.slots i).closed = true := effect.same_instance.2.2.symm.trans closed
      by_cases empty : ((a.step clock sys.world).2.slots i).Empty
      · exact .inl empty
      · right
        have here : (a.step clock sys.world).1 ∈ sys.admissions.set j (a.step clock sys.world).1 :=
          List.mem_set (List.getElem?_eq_some_iff.mp hj).1 _
        rcases a.step_closed clock h.shared.exact before empty with committed | ⟨holds, not⟩
        · exact .inr ⟨_, here, committed⟩
        · rcases settled i before with none | closing | ⟨b, hb, committed⟩
          · exact absurd none holds
          · exact .inl closing
          · refine .inr ⟨b, ?_, committed⟩
            obtain ⟨k, hk⟩ := List.mem_iff_getElem?.mp hb
            have ne : j ≠ k := by
              rintro rfl
              rw [hj, Option.some.injEq] at hk
              exact not (hk ▸ committed)
            exact List.mem_of_getElem? ((List.getElem?_set_ne ne).trans hk)
  | control control =>
    obtain ⟨admissions, closes, leaves, closing, -⟩ := control_leaves h.shared control
    rw [show (sys.act (.control control)).closing = sys.closing ++ closes from closing,
      show (sys.act (.control control)).admissions = sys.admissions from admissions]
    rcases (leaves.closed i).mp closed with before | closes
    · refine (settled i before).imp ?_ (.imp_left (List.mem_append_left _))
      exact fun empty => (leaves.slots i).entries.trans empty
    · exact .inr (.inl (List.mem_append_right _ closes))
  | drain slot =>
    simp only [act] at closed ⊢
    split
    · rename_i mem
      rw [if_pos mem] at closed
      have before : (sys.slots i).closed = true := (World.modify_field Slot.closed rfl i).symm.trans closed
      by_cases hi : i = slot
      · left
        change ((sys.world.modify slot Slot.drainLate).slots i).Empty
        rw [World.modify_slots, hi, Function.update_self]
        rfl
      · refine (settled i before).imp (fun empty => ?_) (.imp_left fun closing => ?_)
        · change ((sys.world.modify slot Slot.drainLate).slots i).Empty
          rw [World.modify_slots, Function.update_of_ne hi]
          exact empty
        · exact (List.mem_erase_of_ne hi).mpr closing
    · rename_i mem
      rw [if_neg mem] at closed
      exact settled i closed
  | consume slot op =>
    simp only [act] at closed ⊢
    split
    · rename_i known
      rw [if_pos known] at closed
      have same := (Slot.consume_same (h.shared.exact slot) op).1.2.2
      have before : (sys.slots i).closed = true := (World.modify_field Slot.closed same i).symm.trans closed
      refine (settled i before).imp_left fun empty => ?_
      change ((sys.world.modify slot (Slot.consume op)).slots i).Empty
      rw [World.modify_slots]
      by_cases hi : i = slot
      · subst hi
        rw [Function.update_self]
        exact Slot.consume_empty (h.shared.exact i) empty op
      · rw [Function.update_of_ne hi]
        exact empty
    · rename_i unknown
      rw [if_neg unknown] at closed
      exact settled i closed

theorem settled_step {sys : System m} (h : sys.Sound) (settled : sys.Settled) (action : Action) :
    (sys.step action).Settled := settled_act h settled action

/-! ### After a slot is closed -/

/-- The admissions with the numbers that `later` says have nothing to do with a slot. -/
def Apart (slot : Nat) (later : Nat → Prop) (sys : System m) : Prop :=
  (sys.slots slot).closed = true ∧ ∀ j, later j → ∀ a, sys.admissions[j]? = some a → ∀ t ∈ a.pc.targets, t.slot ≠ slot

/-- An admission that has nothing to do with a closed slot does not come to it any more. -/
theorem apart_step {slot : Nat} {later : Nat → Prop} {sys : System m} (h : sys.Sound) (apart : sys.Apart slot later)
    (action : Action) : (sys.step action).Apart slot later := by
  obtain ⟨closed, apart⟩ := apart
  refine ⟨act_closed h action closed, fun j hj a ha t ht => ?_⟩
  change (sys.act action).admissions[j]? = some a at ha
  cases action with
  | begin update =>
    simp only [act] at ha
    by_cases old : j < sys.admissions.length
    · rw [List.getElem?_append_left old] at ha
      exact apart j hj a ha t ht
    · rw [List.getElem?_append_right (Nat.le_of_not_lt old)] at ha
      obtain rfl := List.mem_singleton.mp (List.mem_of_getElem? ha)
      cases ht
  | step k clock =>
    simp only [act] at ha
    cases hk : sys.admissions[k]? with
    | none =>
      rw [hk] at ha
      exact apart j hj a ha t ht
    | some b =>
      rw [hk] at ha
      by_cases same : k = j
      · subst same
        dsimp only at ha
        rw [List.getElem?_set_self (List.getElem?_eq_some_iff.mp hk).1, Option.some.injEq] at ha
        subst ha
        rcases b.step_targets clock sys.world t ht with ht | ht
        · exact apart k hj b hk t ht
        · rintro rfl
          exact Bool.false_ne_true ((Instances.current h.shared.instances t ht).symm.trans closed)
      · dsimp only at ha
        rw [List.getElem?_set_ne same] at ha
        exact apart j hj a ha t ht
  | control control =>
    simp only [act] at ha
    rw [(control_leaves h.shared control).1] at ha
    exact apart j hj a ha t ht
  | drain slot' =>
    simp only [act] at ha
    split at ha <;> exact apart j hj a ha t ht
  | consume slot' op =>
    simp only [act] at ha
    split at ha <;> exact apart j hj a ha t ht

/-- The end of the drain of `slot` closes it. -/
def Retires (sys : System m) (slot drain : Nat) : Prop :=
  (sys.slots slot).closed = false ∧ ((sys.step (.control (.retire slot drain))).slots slot).closed = true

/-- What a run keeps. -/
structure Invariant (sys : System m) : Prop where
  settled : sys.Settled
  accounted : sys.Accounted

theorem invariant_step {sys : System m} (h : sys.Sound) (inv : sys.Invariant) (action : Action) :
    (sys.step action).Invariant := ⟨settled_step h inv.settled action, accounted_step h inv.accounted action⟩

theorem invariant_new {cfg : Config} {tokenKeys : Str → Nat} {engine : Shared m}
    (made : Shared.new cfg tokenKeys = .ok engine) : (new engine).Invariant :=
  ⟨fun i closed => (nomatch (unused_new made i).closed.symm.trans closed), fun i => .empty (unused_new made i)⟩

theorem run_invariant {cfg : Config} {tokenKeys : Str → Nat} {engine : Shared m}
    (made : Shared.new cfg tokenKeys = .ok engine) (actions : List Action) :
    ((new engine).run actions).Sound ∧ ((new engine).run actions).Invariant :=
  run_induction (sound_new made) (invariant_new made) (fun _ action h inv => invariant_step h inv action) actions

end System

/-- Whatever happens in whatever order: once the last drain of a retired queue is done and every admission that was in
    progress when the queue was closed has finished, the queue is empty; and at any time each update that any queue ever
    got is in it or has left it exactly once, acked by its holder, evicted, purged or drained and counted as such. -/
theorem run_retired {cfg : Config} {tokenKeys : Str → Nat} {engine : Shared m}
    (made : Shared.new cfg tokenKeys = .ok engine) (before after : List Action) (slot drain : Nat) :
    let opened : System m := (System.new engine).run before
    let now : System m := (opened.step (.control (.retire slot drain))).run after
    (opened.Retires slot drain → slot ∉ now.closing →
      (∀ (j : Nat) a a', opened.admissions[j]? = some a → now.admissions[j]? = some a' → a.pc.Finished ∨ a'.pc.Finished) →
      (now.slots slot).Empty) ∧
    ∀ i, Accounts (now.slots i) (now.traces i) := by
  intro opened now
  obtain ⟨sound, -⟩ := System.run_invariant made before
  obtain ⟨-, inv⟩ := System.run_invariant made (before ++ .control (.retire slot drain) :: after)
  rw [System.run_append] at inv
  change now.Invariant at inv
  refine ⟨fun ⟨_, closed⟩ drained finished => ?_, inv.accounted⟩
  -- The admissions that came later, or were done before, have nothing to do with the slot.
  let later (j : Nat) : Prop := ∀ a, opened.admissions[j]? = some a → a.pc.Finished
  have apart : (opened.step (.control (.retire slot drain))).Apart slot later := by
    refine ⟨closed, fun j hj a ha t ht => ?_⟩
    change ((opened.control (.retire slot drain)).admissions)[j]? = some a at ha
    rw [(System.control_leaves sound.shared _).1] at ha
    have done := hj a ha
    cases hpc : a.pc with
    | done outcome =>
      rw [hpc] at ht
      cases ht
    | _ => simp only [hpc, Pc.Finished] at done
  obtain ⟨-, closed, apart⟩ := System.run_induction (System.step_sound sound _) apart
    (fun _ action h apart => System.apart_step h apart action) after
  rcases inv.settled slot closed with empty | closing | ⟨a, ha, committed⟩
  · exact empty
  · exact absurd closing drained
  · obtain ⟨j, hj⟩ := List.mem_iff_getElem?.mp ha
    by_cases hlater : later j
    · obtain ⟨t, ht, heq⟩ := committed.targets
      exact absurd heq (apart j hlater a hj t ht)
    · simp only [later, not_forall] at hlater
      obtain ⟨b, hb, busy⟩ := hlater
      rcases finished j b a hb hj with done | done
      · exact absurd done busy
      · exact absurd committed done.not_committed

/-- Bot `b`'s update gets room at `q`, and a reload without `q` begins its drain. -/
def reservedThenRemoved : List Action :=
  .begin { source := 1, updateId := 7, payload := [1, 2, 3], facts := default } :: List.replicate 5 (.step 0 0) ++
    [.control (.apply alone)]

/-- The drain ends before the update is queued. -/
def drainedThenQueued : List Action := .drain 1 :: List.replicate 5 (.step 0 0)

theorem run_retired_meanwhile :
    let now := (((System.new bothEngine).run reservedThenRemoved).step (.control (.retire 1 0))).run drainedThenQueued
    (now.slots 1).Empty ∧ (now.traces 1).left.map (·.fate) = [.drained] := by
  intro now
  have made : Shared.new both List.length = .ok bothEngine := rfl
  have finished : ∀ a ∈ now.admissions, a.pc.Finished := by decide
  refine ⟨(run_retired made reservedThenRemoved drainedThenQueued 1 0).1 ⟨rfl, rfl⟩ (by decide) ?_, by decide⟩
  exact fun j a a' _ ha' => .inr (finished a' (List.mem_of_getElem? ha'))

end Tgin.Engine
