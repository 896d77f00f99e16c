import Mathlib.Data.List.Induction
import Tgin.Breaker.Serial
import Tgin.Push

/-! The choice of an endpoint. `pick` surveys the breakers with `readyIn` and then asks one of the ready ones with `allow`; since
    the two agree, one round gives the answer. -/

namespace Tgin.Push
open Engine (Envelope PushOptions RuntimeEndpoint)

/-! ### The survey -/

/-- A duration with `P`, and none with `P` is shorter; `none` when there is none. -/
def Least (P : Duration → Prop) : Option Duration → Prop
  | none => ∀ wait, ¬P wait
  | some wait => P wait ∧ ∀ other, P other → wait ≤ other

theorem Least.congr {P Q : Duration → Prop} (h : ∀ wait, P wait ↔ Q wait) {wait : Option Duration} (least : Least P wait) :
    Least Q wait := by
  obtain rfl : P = Q := funext fun wait => propext (h wait)
  exact least

/-- One more duration. -/
theorem Least.insert {P Q : Duration → Prop} {left : Duration} (h : ∀ wait, Q wait ↔ P wait ∨ wait = left)
    {wait : Option Duration} (least : Least P wait) : Least Q (some (wait.elim left (min · left))) := by
  cases wait with
  | none =>
    refine ⟨(h _).mpr (.inr rfl), fun other hother => ?_⟩
    rcases (h _).mp hother with hother | rfl
    · exact absurd hother (least other)
    · exact Nat.le_refl _
  | some wait =>
    obtain ⟨holds, le⟩ := least
    refine ⟨(h _).mpr ?_, fun other hother => ?_⟩
    · rcases Nat.le_total wait left with hle | hle
      · exact .inl (by rwa [Option.elim_some, Nat.min_eq_left hle])
      · exact .inr (Nat.min_eq_right hle)
    · rcases (h _).mp hother with hother | rfl
      · exact Nat.le_trans (Nat.min_le_left ..) (le other hother)
      · exact Nat.min_le_right ..

section
variable (c : PushConsumer) (slots : List Address) (now : Instant)

/-- The wait that the breaker of one of the slots gives. -/
def WaitOf (wait : Duration) : Prop := ∃ slot ∈ slots, (c.heap slot).breaker.readyIn now = some wait

theorem survey_concat (slot : Address) :
    c.survey (slots ++ [slot]) now =
      match (c.heap slot).breaker.readyIn now with
      | some 0 => ((c.survey slots now).1 ++ [slots.length], (c.survey slots now).2)
      | some left => ((c.survey slots now).1, some ((c.survey slots now).2.elim left (min · left)))
      | none => c.survey slots now := by
  rw [PushConsumer.survey, List.zipIdx_append, List.foldl_append, Nat.zero_add]
  rfl

theorem waitOf_concat (slot : Address) (wait : Duration) : WaitOf c (slots ++ [slot]) now wait ↔
    WaitOf c slots now wait ∨ (c.heap slot).breaker.readyIn now = some wait := by
  simp only [WaitOf, List.mem_append, List.mem_singleton]
  constructor
  · rintro ⟨s, mem | rfl, h⟩
    · exact .inl ⟨s, mem, h⟩
    · exact .inr h
  · rintro (⟨s, mem, h⟩ | h)
    · exact ⟨s, .inl mem, h⟩
    · exact ⟨slot, .inr rfl, h⟩

/-- The survey finds the endpoints that are ready, and the least of the other waits. -/
theorem survey_finds :
    (∀ index, index ∈ (c.survey slots now).1 ↔
      ∃ slot, (slot, index) ∈ slots.zipIdx ∧ (c.heap slot).breaker.readyIn now = some 0) ∧
      Least (fun wait => 0 < wait ∧ WaitOf c slots now wait) (c.survey slots now).2 := by
  induction slots using List.reverseRecOn with
  | nil =>
    refine ⟨fun index => ⟨fun h => absurd h List.not_mem_nil, fun ⟨_, mem, _⟩ => absurd mem List.not_mem_nil⟩, ?_⟩
    rintro wait ⟨-, slot, mem, -⟩
    cases mem
  | append_singleton slots slot ih =>
    obtain ⟨ready, least⟩ := ih
    have indexed (index : Nat) (s : Address) : (s, index) ∈ (slots ++ [slot]).zipIdx ↔
        (s, index) ∈ slots.zipIdx ∨ s = slot ∧ index = slots.length := by
      rw [List.zipIdx_append, List.mem_append, Nat.zero_add]
      exact or_congr_right (List.mem_singleton.trans (Prod.mk.injEq .. ▸ Iff.rfl))
    -- A breaker that is not ready adds no endpoint.
    have unready (h : (c.heap slot).breaker.readyIn now ≠ some 0) (index : Nat) : index ∈ (c.survey slots now).1 ↔
        ∃ s, (s, index) ∈ (slots ++ [slot]).zipIdx ∧ (c.heap s).breaker.readyIn now = some 0 := by
      rw [ready]
      constructor
      · rintro ⟨s, mem, zero⟩
        exact ⟨s, (indexed index s).mpr (.inl mem), zero⟩
      · rintro ⟨s, mem, zero⟩
        rcases (indexed index s).mp mem with mem | ⟨rfl, -⟩
        · exact ⟨s, mem, zero⟩
        · exact absurd zero h
    rw [survey_concat]
    cases hs : (c.heap slot).breaker.readyIn now with
    | none =>
      refine ⟨unready (by rw [hs]; nofun), least.congr fun wait => and_congr_right fun _ => ?_⟩
      rw [waitOf_concat, hs]
      exact ⟨.inl, fun h => h.resolve_right nofun⟩
    | some left =>
      cases left with
      | zero =>
        refine ⟨fun index => ?_, least.congr fun wait => and_congr_right fun pos => ?_⟩
        · change index ∈ (c.survey slots now).1 ++ [slots.length] ↔ _
          rw [List.mem_append, ready, List.mem_singleton]
          constructor
          · rintro (⟨s, mem, zero⟩ | rfl)
            · exact ⟨s, (indexed index s).mpr (.inl mem), zero⟩
            · exact ⟨slot, (indexed _ slot).mpr (.inr ⟨rfl, rfl⟩), hs⟩
          · rintro ⟨s, mem, zero⟩
            rcases (indexed index s).mp mem with mem | ⟨-, rfl⟩
            · exact .inl ⟨s, mem, zero⟩
            · exact .inr rfl
        · rw [waitOf_concat, hs]
          refine ⟨.inl, fun h => h.resolve_right fun zero => ?_⟩
          cases zero
          exact Nat.lt_irrefl _ pos
      | succ left =>
        refine ⟨unready (by rw [hs]; nofun), least.insert fun wait => ?_⟩
        rw [waitOf_concat, hs, Option.some_inj, and_or_left]
        refine or_congr_right ⟨fun h => h.2.symm, ?_⟩
        rintro rfl
        exact ⟨Nat.succ_pos left, rfl⟩

/-- What the survey finds at an index is a slot that would admit a request. -/
theorem mem_survey {index : Nat} : index ∈ (c.survey slots now).1 ↔
    index < slots.length ∧ ((c.heap (slots.getD index 0)).breaker.allow now).1 = true := by
  rw [(survey_finds c slots now).1]
  simp only [List.mk_mem_zipIdx_iff_getElem?, Breaker.readyIn_eq_zero, List.getD_eq_getElem?_getD]
  constructor
  · rintro ⟨slot, at', admits⟩
    rw [at']
    exact ⟨(List.getElem?_eq_some_iff.mp at').1, admits⟩
  · rintro ⟨lt, admits⟩
    rw [List.getElem?_eq_getElem lt] at admits ⊢
    exact ⟨_, rfl, admits⟩

end

/-! ### The balance -/

theorem getD_mod_mem {healthy : List Nat} (ne : healthy ≠ []) (n : Nat) : healthy.getD (n % healthy.length) 0 ∈ healthy := by
  have lt : n % healthy.length < healthy.length := Nat.mod_lt _ (List.length_pos_iff.mpr ne)
  rw [List.getD_eq_getElem?_getD, List.getElem?_eq_getElem lt]
  exact List.getElem_mem lt

theorem minByKey_mem {healthy : List Nat} (ne : healthy ≠ []) (key : Nat → Nat) : PushConsumer.minByKey key healthy ∈ healthy := by
  cases healthy with
  | nil => exact absurd rfl ne
  | cons first rest =>
    have fold (best : Nat) : rest.foldl (fun best i => if key i < key best then i else best) best ∈ best :: rest := by
      clear ne
      induction rest generalizing best with
      | nil => exact List.mem_cons_self
      | cons i rest ih =>
        rw [List.foldl_cons]
        split
        · exact List.mem_cons_of_mem _ (ih i)
        · rcases List.mem_cons.mp (ih best) with here | there
          · exact List.mem_cons.mpr (.inl here)
          · exact List.mem_cons_of_mem _ (List.mem_cons_of_mem _ there)
    exact fold first

/-- Any way to balance gives one of the ready endpoints. -/
theorem balanced_mem (balance : Config.Balance) (key : Option Nat) {healthy : List Nat} (ne : healthy ≠ []) (load : Nat → Nat)
    (cursor : Nat) : (PushConsumer.balanced balance key healthy load cursor).1 ∈ healthy := by
  cases balance with
  | roundRobin => exact getD_mod_mem ne cursor
  | leastInFlight => exact minByKey_mem ne load
  | hashChat =>
    cases key with
    | none => exact getD_mod_mem ne cursor
    | some key => exact getD_mod_mem ne key

/-! ### The pick -/

/-- The first round of the loop ends it: with the survey's wait, or with a ready endpoint, whose breaker then admits the
    request. -/
theorem pick_succ (targets : Targets) (key : Option Nat) (now : Instant) (fuel : Nat) (c : PushConsumer) :
    ((c.survey targets.slots now).1 = [] ∧
        PushConsumer.pick targets key now (fuel + 1) c = (some (.error (c.survey targets.slots now).2), c)) ∨
      ∃ index ∈ (c.survey targets.slots now).1, ∃ cursor breaker,
        PushConsumer.pick targets key now (fuel + 1) c = (some (.ok index),
          ({ c with cursor }.modify (targets.slots.getD index 0) fun s => { s with breaker }).modify
            (targets.slots.getD index 0) fun s => { s with inFlight := s.inFlight + 1 }) := by
  have admits := fun index => (@mem_survey c targets.slots now index).mp
  rw [PushConsumer.pick]
  generalize c.survey targets.slots now = result at admits ⊢
  obtain ⟨healthy, wait⟩ := result
  by_cases ne : healthy = []
  · subst ne
    exact .inl ⟨rfl, rfl⟩
  · have picked := balanced_mem targets.opts.balance key ne (fun i => (c.heap (targets.slots.getD i 0)).inFlight) c.cursor
    simp only [List.isEmpty_eq_false_iff.mpr ne, Bool.false_eq_true, if_false]
    generalize PushConsumer.balanced targets.opts.balance key healthy _ c.cursor = choice at picked ⊢
    obtain ⟨index, cursor⟩ := choice
    have admitted := (admits index picked).2
    dsimp only
    generalize (c.heap (targets.slots.getD index 0)).breaker.allow now = allowed at admitted
    obtain ⟨_, breaker⟩ := allowed
    cases admitted
    exact .inr ⟨index, picked, cursor, breaker, rfl⟩

/-- The answer that `pick` owes: an endpoint whose breaker admits the request, or, when no breaker does, the least of the waits
    that the breakers give. -/
def Answers (c : PushConsumer) (targets : Targets) (now : Instant) : Except (Option Duration) Nat → Prop
  | .ok index => index < targets.slots.length ∧ ((c.heap (targets.slots.getD index 0)).breaker.allow now).1 = true
  | .error wait => (∀ slot ∈ targets.slots, ((c.heap slot).breaker.allow now).1 = false) ∧ Least (WaitOf c targets.slots now) wait

theorem pick_answers (targets : Targets) (key : Option Nat) (now : Instant) {fuel : Nat} (pos : 0 < fuel) (c : PushConsumer) :
    ∃ answer, (PushConsumer.pick targets key now fuel c).1 = some answer ∧ Answers c targets now answer := by
  obtain ⟨fuel, rfl⟩ := Nat.exists_eq_add_one_of_ne_zero (Nat.ne_zero_of_lt pos)
  obtain ⟨found, least⟩ := survey_finds c targets.slots now
  rcases pick_succ targets key now fuel c with ⟨none, eq⟩ | ⟨index, mem, cursor, breaker, eq⟩
  · have closed (slot : Address) (hs : slot ∈ targets.slots) : (c.heap slot).breaker.readyIn now ≠ some 0 := by
      intro zero
      obtain ⟨index, h⟩ := List.mem_iff_getElem?.mp hs
      have := (found index).mpr ⟨slot, List.mk_mem_zipIdx_iff_getElem?.mpr h, zero⟩
      rw [none] at this
      cases this
    refine ⟨_, congrArg Prod.fst eq, fun slot hs => ?_, least.congr fun wait => ⟨And.right, fun h => ⟨?_, h⟩⟩⟩
    · exact Bool.eq_false_iff.mpr fun admits => closed slot hs ((Breaker.readyIn_eq_zero ..).mpr admits)
    · obtain ⟨slot, hs, h⟩ := h
      refine Nat.pos_of_ne_zero ?_
      rintro rfl
      exact closed slot hs h
  · exact ⟨_, congrArg Prod.fst eq, (mem_survey c targets.slots now).mp mem⟩

/-- The breaker opens on the failure that makes up the threshold, its two readings agree, and so the choice of an endpoint comes
    to the right answer. -/
theorem breakers_agree {cfg : BreakerConfig} (threshold : 1 ≤ cfg.failureThreshold) (word : cfg.failureThreshold < 2 ^ 32) :
    (∀ base calls client client' call, Breaker.Client.Reached cfg base calls client → client.breaker.state = .closed →
      client.Step call client' → (client'.breaker.state = .opened ↔ Breaker.streak (calls ++ [call]) = cfg.failureThreshold) ∧
        client'.breaker.state ≠ .halfOpen) ∧
    (∀ (breaker : Breaker) now, breaker.readyIn now = some 0 ↔ (breaker.allow now).1 = true) ∧
    ∀ targets key now fuel c, 0 < fuel →
      ∃ answer, (PushConsumer.pick targets key now fuel c).1 = some answer ∧ Answers c targets now answer :=
  ⟨fun _ _ _ _ _ reached closed step => ⟨reached.opens threshold word closed step, step.closed closed⟩,
    Breaker.readyIn_eq_zero, fun targets key now _ c pos => pick_answers targets key now pos c⟩

/-- The settings of a breaker that opens on the first failure. -/
def fragile : BreakerConfig := { failureThreshold := 1, openFor := 10 }

theorem breakers_agree_fragile : ((Breaker.new fragile 0).onFailure 0).state = .opened := by
  have admitted : Breaker.Client.Reached fragile 0 [.allow 0] { breaker := .new fragile 0, pending := true } :=
    Breaker.Client.Reached.new.step (.allow nofun)
  have opens := (breakers_agree (show 1 ≤ fragile.failureThreshold by decide) (by decide)).1 0 _ _ _ (.failure 0) admitted rfl (.failure rfl)
  exact opens.1.mpr rfl

end Tgin.Push
