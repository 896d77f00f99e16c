import Mathlib.Data.List.Forall2
import Tgin.Engine.Sources

/-! Consumer instances over runs of reloads: an instance is current or draining, never both, and one of a name and
    a mode at a time. -/

namespace Tgin.Engine
open Queue Rules

variable {m : Matchers}

/-! ### Planning the slots -/

namespace Plan
variable (old : Option (EngineState m)) (slots : Nat → Slot) (retired : List Nat)

/-- The current slot a consumer keeps. -/
def keptSlot (c : Config.Consumer) : Option Nat :=
  (previous old slots c.name).bind fun p => if (slots p.1).mode = mode c.kind then some p.1 else none

/-- The current slot of the consumer's name that is replaced, for its mode is another. -/
def replacedSlot (c : Config.Consumer) : Option Nat :=
  (previous old slots c.name).bind fun p => if (slots p.1).mode = mode c.kind then none else some p.1

/-- The draining slot that comes back for a consumer that keeps none. -/
def revivedSlot (c : Config.Consumer) : Option Nat :=
  match keptSlot old slots c with
  | some _ => none
  | none => draining slots retired c

/-- Where the slot of a consumer comes from; a new one is made from address `allocated` on. -/
def Origin (allocated : Nat) (c : Config.Consumer) (slot : Nat) : Prop :=
  keptSlot old slots c = some slot ∨ revivedSlot old slots retired c = some slot ∨
    keptSlot old slots c = none ∧ revivedSlot old slots retired c = none ∧ allocated ≤ slot

/-- A target planned for a consumer, with the slots as they are then. -/
structure Planned (allocated : Nat) (sourceNames : List Str) (after : Nat → Slot) (c : Config.Consumer) (t : Target) :
    Prop where
  target : t = target c t.slot
  origin : Origin old slots retired allocated c t.slot
  fresh : allocated ≤ t.slot → after t.slot = newSlot t.slot c sourceNames

variable {namesGrew : Bool} {sourceNames : List Str}

/-- What planning one consumer does: it gets a slot, whose origin says what else changes. -/
theorem consumer_spec (namesGrew : Bool) (sourceNames : List Str) (d : Draft) (c : Config.Consumer) :
    let d' := consumer old slots retired namesGrew sourceNames d c
    ∃ slot, d'.targets = d.targets ++ [target c slot] ∧
      d'.changes.retiring = d.changes.retiring ++ (replacedSlot old slots c).toList ∧
      d'.changes.revived = d.changes.revived ++ (revivedSlot old slots retired c).toList ∧
      ((keptSlot old slots c = some slot ∨ revivedSlot old slots retired c = some slot) ∧
          d'.slots = d.slots ∧ d'.allocated = d.allocated ∨
        keptSlot old slots c = none ∧ revivedSlot old slots retired c = none ∧ slot = d.allocated ∧
          d'.slots = Function.update d.slots slot (newSlot slot c sourceNames) ∧ d'.allocated = d.allocated + 1) := by
  have replaces (d : Draft) : ∃ slot, (replace slots retired sourceNames c d).targets = d.targets ++ [target c slot] ∧
      (replace slots retired sourceNames c d).changes.retiring = d.changes.retiring ∧
      (replace slots retired sourceNames c d).changes.revived = d.changes.revived ++ (draining slots retired c).toList ∧
      (draining slots retired c = some slot ∧ (replace slots retired sourceNames c d).slots = d.slots ∧
          (replace slots retired sourceNames c d).allocated = d.allocated ∨
        draining slots retired c = none ∧ slot = d.allocated ∧
          (replace slots retired sourceNames c d).slots = Function.update d.slots slot (newSlot slot c sourceNames) ∧
          (replace slots retired sourceNames c d).allocated = d.allocated + 1) := by
    unfold replace
    cases draining slots retired c with
    | some slot => exact ⟨slot, rfl, rfl, rfl, .inl ⟨rfl, rfl, rfl⟩⟩
    | none => exact ⟨d.allocated, rfl, rfl, (List.append_nil _).symm, .inr ⟨rfl, rfl, rfl, rfl⟩⟩
  unfold consumer revivedSlot replacedSlot keptSlot
  rcases previous old slots c.name with _ | ⟨slot, written⟩
  · obtain ⟨slot, ht, hret, hrev, h⟩ := replaces d
    refine ⟨slot, ht, hret.trans (List.append_nil _).symm, hrev, ?_⟩
    rcases h with ⟨hr, hs, ha⟩ | ⟨hr, rfl, hs, ha⟩
    · exact .inl ⟨.inr hr, hs, ha⟩
    · exact .inr ⟨rfl, hr, rfl, hs, ha⟩
  · simp only [Option.bind_some]
    by_cases same : (slots slot).mode = mode c.kind
    · simp only [if_pos same]
      exact ⟨slot, rfl, (List.append_nil _).symm, (List.append_nil _).symm, .inl ⟨.inl rfl, trivial, trivial⟩⟩
    · simp only [if_neg same]
      obtain ⟨slot', ht, hret, hrev, h⟩ := replaces
        { d with changes := { d.changes with retiring := d.changes.retiring ++ [slot] } }
      refine ⟨slot', ht, hret, hrev, ?_⟩
      rcases h with ⟨hr, hs, ha⟩ | ⟨hr, rfl, hs, ha⟩
      · exact .inl ⟨.inr hr, hs, ha⟩
      · exact .inr ⟨trivial, hr, rfl, hs, ha⟩

/-- What the loop over the consumers plans. -/
structure Drafted (allocated : Nat) (cs : List Config.Consumer) (sourceNames : List Str) (d d' : Draft) : Prop where
  le_allocated : d.allocated ≤ d'.allocated
  kept : ∀ i < d.allocated, d'.slots i = d.slots i
  retiring : d'.changes.retiring = d.changes.retiring ++ cs.filterMap (replacedSlot old slots)
  revived : d'.changes.revived = d.changes.revived ++ cs.filterMap (revivedSlot old slots retired)
  targets : ∃ ts, d'.targets = d.targets ++ ts ∧
    List.Forall₂ (fun c t => Planned old slots retired allocated sourceNames d'.slots c t ∧ t.slot < d'.allocated) cs ts

theorem drafted {allocated : Nat} (cs : List Config.Consumer) {d : Draft} (le : allocated ≤ d.allocated)
    (before : ∀ c slot, keptSlot old slots c = some slot ∨ revivedSlot old slots retired c = some slot → slot < allocated) :
    Drafted old slots retired allocated cs sourceNames d
      (cs.foldl (consumer old slots retired namesGrew sourceNames) d) := by
  induction cs generalizing d with
  | nil => exact ⟨le_rfl, fun _ _ => rfl, (List.append_nil _).symm, (List.append_nil _).symm, [], (List.append_nil _).symm, .nil⟩
  | cons c cs ih =>
    obtain ⟨slot, ht, hret, hrev, h⟩ := consumer_spec old slots retired namesGrew sourceNames d c
    rw [List.foldl_cons]
    generalize consumer old slots retired namesGrew sourceNames d c = d₁ at ht hret hrev h ⊢
    have le₁ : d.allocated ≤ d₁.allocated := by
      rcases h with ⟨-, -, ha⟩ | ⟨-, -, -, -, ha⟩ <;> rw [ha]
      exact Nat.le_succ _
    have same₁ : ∀ i < d.allocated, d₁.slots i = d.slots i := by
      intro i hi
      rcases h with ⟨-, hs, -⟩ | ⟨-, -, rfl, hs, -⟩ <;> rw [hs]
      exact Function.update_of_ne (Nat.ne_of_lt hi) ..
    obtain ⟨le₂, same₂, hret₂, hrev₂, ts, ht₂, htargets⟩ := ih (le.trans le₁)
    have lt : slot < d₁.allocated := by
      rcases h with ⟨h, -, ha⟩ | ⟨-, -, rfl, -, ha⟩
      · exact Nat.lt_of_lt_of_le (before c slot h) (le.trans le₁)
      · exact ha ▸ Nat.lt_succ_self _
    refine ⟨le₁.trans le₂, fun i hi => (same₂ i (Nat.lt_of_lt_of_le hi le₁)).trans (same₁ i hi), ?_, ?_,
      target c slot :: ts, ?_, .cons ⟨⟨rfl, ?_, fun new => ?_⟩, Nat.lt_of_lt_of_le lt le₂⟩ htargets⟩
    · rw [hret₂, hret, List.append_assoc, List.filterMap_cons]
      cases replacedSlot old slots c <;> simp
    · rw [hrev₂, hrev, List.append_assoc, List.filterMap_cons]
      cases revivedSlot old slots retired c <;> simp
    · rw [ht₂, ht, List.append_assoc]
      rfl
    · rcases h with ⟨h | h, -, -⟩ | ⟨hk, hr, rfl, -, -⟩
      · exact .inl h
      · exact .inr (.inl h)
      · exact .inr (.inr ⟨hk, hr, le⟩)
    · rcases h with ⟨h, -, -⟩ | ⟨-, -, rfl, hs, -⟩
      · exact absurd new (Nat.not_le.mpr (before c slot h))
      · exact (same₂ _ lt).trans (by rw [hs]; exact Function.update_self ..)

end Plan

/-! ### The invariant -/

/-- What holds of the instances: each consumer has a current one of its name and mode, no instance is both current and
    draining or twice draining, and of a name and a mode there is one. -/
structure Instances (consumers : List Config.Consumer) (targets : List Target) (retired : List Nat) (allocated : Nat)
    (slots : Nat → Slot) : Prop where
  consumerNames : (consumers.map (·.name)).Nodup
  matched : List.Forall₂ (fun c t => t = Plan.target c t.slot ∧ (slots t.slot).name = c.name ∧
    (slots t.slot).mode = mode c.kind) consumers targets
  below : ∀ t ∈ targets, t.slot < allocated
  retiredBelow : ∀ r ∈ retired, r < allocated
  nodup : retired.Nodup
  single : ∀ r ∈ retired, ∀ r' ∈ retired, (slots r).name = (slots r').name → (slots r).mode = (slots r').mode → r = r'
  apart : ∀ r ∈ retired, ∀ t ∈ targets, (slots r).name = (slots t.slot).name → (slots r).mode ≠ (slots t.slot).mode
  current : ∀ t ∈ targets, (slots t.slot).closed = false
  draining : ∀ r ∈ retired, (slots r).closed = false

/-- The elements of two lists matched one by one, found from the right or from the left. -/
theorem forall₂_exists {α β : Type} {R : α → β → Prop} {as : List α} {bs : List β} (h : List.Forall₂ R as bs) :
    (∀ b ∈ bs, ∃ a ∈ as, R a b) ∧ ∀ a ∈ as, ∃ b ∈ bs, R a b := by
  induction h with
  | nil => exact ⟨nofun, nofun⟩
  | cons hab _ ih =>
    refine ⟨fun b hb => ?_, fun a ha => ?_⟩
    · rcases List.mem_cons.mp hb with rfl | hb
      · exact ⟨_, List.mem_cons_self, hab⟩
      · exact (ih.1 b hb).imp fun _ h => ⟨List.mem_cons_of_mem _ h.1, h.2⟩
    · rcases List.mem_cons.mp ha with rfl | ha
      · exact ⟨_, List.mem_cons_self, hab⟩
      · exact (ih.2 a ha).imp fun _ h => ⟨List.mem_cons_of_mem _ h.1, h.2⟩

namespace Instances
variable {consumers : List Config.Consumer} {targets : List Target} {retired : List Nat} {allocated : Nat}
  {slots slots' : Nat → Slot}

theorem target_names (h : Instances consumers targets retired allocated slots) :
    targets.map (fun t => (slots t.slot).name) = consumers.map (·.name) := by
  refine (List.forall₂_eq_eq_eq ▸ ?_ : consumers.map (·.name) = targets.map fun t => (slots t.slot).name).symm
  rw [List.forall₂_map_left_iff, List.forall₂_map_right_iff]
  exact h.matched.imp fun _ _ hc => hc.2.1.symm

/-- Two current targets of one name are one. -/
theorem target_unique (h : Instances consumers targets retired allocated slots) {t t' : Target} (ht : t ∈ targets)
    (ht' : t' ∈ targets) (same : (slots t.slot).name = (slots t'.slot).name) : t = t' :=
  List.inj_on_of_nodup_map (h.target_names ▸ h.consumerNames) ht ht' same

theorem consumer_unique (h : Instances consumers targets retired allocated slots) {c c' : Config.Consumer}
    (hc : c ∈ consumers) (hc' : c' ∈ consumers) (same : c.name = c'.name) : c = c' :=
  List.inj_on_of_nodup_map h.consumerNames hc hc' same

/-- Only names, modes and the closed flags of the instances matter. -/
theorem congr (h : Instances consumers targets retired allocated slots)
    (same : ∀ i < allocated, (slots' i).name = (slots i).name ∧ (slots' i).mode = (slots i).mode ∧
      (slots' i).closed = (slots i).closed) : Instances consumers targets retired allocated slots' where
  consumerNames := h.consumerNames
  matched := by
    have below := h.below
    have matched := h.matched
    clear h
    induction matched with
    | nil => exact .nil
    | @cons c t _ _ hct _ ih =>
      rw [List.forall_mem_cons] at below
      obtain ⟨name, mode, -⟩ := same t.slot below.1
      exact .cons ⟨hct.1, name.trans hct.2.1, mode.trans hct.2.2⟩ (ih below.2)
  below := h.below
  retiredBelow := h.retiredBelow
  nodup := h.nodup
  single r hr r' hr' name mode := by
    obtain ⟨hn, hm, -⟩ := same r (h.retiredBelow r hr)
    obtain ⟨hn', hm', -⟩ := same r' (h.retiredBelow r' hr')
    exact h.single r hr r' hr' (hn ▸ hn' ▸ name) (hm ▸ hm' ▸ mode)
  apart r hr t ht name := by
    obtain ⟨hn, hm, -⟩ := same r (h.retiredBelow r hr)
    obtain ⟨hn', hm', -⟩ := same t.slot (h.below t ht)
    rw [hm, hm']
    exact h.apart r hr t ht (hn ▸ hn' ▸ name)
  current t ht := (same t.slot (h.below t ht)).2.2.trans (h.current t ht)
  draining r hr := (same r (h.retiredBelow r hr)).2.2.trans (h.draining r hr)

/-- A draining instance that is taken off leaves the others as they are, whatever becomes of it. -/
theorem erase (h : Instances consumers targets retired allocated slots) {slot : Nat} (hs : slot ∈ retired)
    (same : ∀ i ≠ slot, slots' i = slots i) : Instances consumers targets (retired.erase slot) allocated slots' := by
  have notTarget {t : Target} (ht : t ∈ targets) : t.slot ≠ slot := by
    rintro rfl
    exact h.apart _ hs t ht rfl rfl
  have others {r : Nat} (hr : r ∈ retired.erase slot) : r ∈ retired ∧ slots' r = slots r := by
    rw [h.nodup.mem_erase_iff] at hr
    exact ⟨hr.2, same r hr.1⟩
  refine {
    consumerNames := h.consumerNames
    matched := ?_
    below := h.below
    retiredBelow := fun r hr => h.retiredBelow r (others hr).1
    nodup := h.nodup.erase slot
    single := fun r hr r' hr' => ?_
    apart := fun r hr t ht => ?_
    current := fun t ht => ?_
    draining := fun r hr => ?_ }
  · have matched := h.matched
    clear h others
    induction matched with
    | nil => exact .nil
    | cons hct _ ih =>
      refine .cons ?_ (ih fun ht => notTarget (List.mem_cons_of_mem _ ht))
      rw [same _ (notTarget List.mem_cons_self)]
      exact hct
  · rw [(others hr).2, (others hr').2]
    exact h.single r (others hr).1 r' (others hr').1
  · rw [(others hr).2, same _ (notTarget ht)]
    exact h.apart r (others hr).1 t ht
  · rw [same _ (notTarget ht)]
    exact h.current t ht
  · rw [(others hr).2]
    exact h.draining r (others hr).1

end Instances

/-! ### A plan keeps the invariant -/

def oldTargets (old : Option (EngineState m)) : List Target := (old.map (·.targets)).getD []

def oldConsumers (old : Option (EngineState m)) : List Config.Consumer := (old.map (·.config.consumers)).getD []

namespace Plan
variable {old : Option (EngineState m)} {slots : Nat → Slot} {retired : List Nat} {allocated : Nat}

theorem previous_eq (old : Option (EngineState m)) (slots : Nat → Slot) (name : Str) :
    previous old slots name = ((oldTargets old).find? fun t => (slots t.slot).name = name).bind fun target =>
      ((oldConsumers old).find? (·.name = name)).map fun written => (target.slot, written) := by
  cases old <;> rfl

theorem of_previous {name : Str} {slot : Nat} {written : Config.Consumer}
    (h : previous old slots name = some (slot, written)) :
    ∃ t ∈ oldTargets old, t.slot = slot ∧ (slots slot).name = name := by
  rw [previous_eq] at h
  obtain ⟨t, ht, h⟩ := Option.bind_eq_some_iff.mp h
  obtain ⟨_, -, heq⟩ := Option.map_eq_some_iff.mp h
  cases heq
  exact ⟨t, List.mem_of_find?_eq_some ht, rfl, by simpa using List.find?_some ht⟩

theorem of_keptSlot {c : Config.Consumer} {slot : Nat} (h : keptSlot old slots c = some slot) :
    ∃ t ∈ oldTargets old, t.slot = slot ∧ (slots slot).name = c.name ∧ (slots slot).mode = mode c.kind := by
  obtain ⟨⟨slot', written⟩, hp, h⟩ := Option.bind_eq_some_iff.mp h
  split at h <;> cases h
  obtain ⟨t, ht, rfl, name⟩ := of_previous hp
  exact ⟨t, ht, rfl, name, ‹_›⟩

theorem of_replacedSlot {c : Config.Consumer} {slot : Nat} (h : replacedSlot old slots c = some slot) :
    ∃ t ∈ oldTargets old, t.slot = slot ∧ (slots slot).name = c.name ∧ (slots slot).mode ≠ mode c.kind := by
  obtain ⟨⟨slot', written⟩, hp, h⟩ := Option.bind_eq_some_iff.mp h
  split at h <;> cases h
  obtain ⟨t, ht, rfl, name⟩ := of_previous hp
  exact ⟨t, ht, rfl, name, ‹_›⟩

theorem of_draining {c : Config.Consumer} {slot : Nat} (h : draining slots retired c = some slot) :
    slot ∈ retired ∧ (slots slot).name = c.name ∧ (slots slot).mode = mode c.kind := by
  have := List.find?_some h
  simp only [Bool.and_eq_true, decide_eq_true_eq] at this
  exact ⟨List.mem_of_find?_eq_some h, this⟩

theorem of_revivedSlot {c : Config.Consumer} {slot : Nat} (h : revivedSlot old slots retired c = some slot) :
    keptSlot old slots c = none ∧ draining slots retired c = some slot := by
  unfold revivedSlot at h
  cases hk : keptSlot old slots c with
  | none =>
    rw [hk] at h
    exact ⟨rfl, h⟩
  | some slot =>
    rw [hk] at h
    cases h

variable (h : Instances (oldConsumers old) (oldTargets old) retired allocated slots)

include h

/-- A consumer that keeps no slot, of a name and a mode that an instance has: the instance drains and comes back. -/
theorem revivedSlot_of_retired {c : Config.Consumer} {r : Nat} (hr : r ∈ retired) (name : (slots r).name = c.name)
    (hmode : (slots r).mode = mode c.kind) : revivedSlot old slots retired c = some r := by
  have kept : keptSlot old slots c = none := by
    rw [Option.eq_none_iff_forall_not_mem]
    intro slot hk
    obtain ⟨t, ht, rfl, name', mode'⟩ := of_keptSlot hk
    exact h.apart r hr t ht (name.trans name'.symm) (hmode.trans mode'.symm)
  unfold revivedSlot
  rw [kept]
  cases hd : draining slots retired c with
  | none =>
    have := List.find?_eq_none.mp hd r hr
    simp [name, hmode] at this
  | some r' =>
    obtain ⟨hr', name', mode'⟩ := of_draining hd
    rw [h.single r' hr' r hr (name'.trans name.symm) (mode'.trans hmode.symm)]

/-- An instance that a consumer keeps or gets back was there. -/
theorem inherited_below (c : Config.Consumer) (slot : Nat)
    (inherited : keptSlot old slots c = some slot ∨ revivedSlot old slots retired c = some slot) : slot < allocated := by
  rcases inherited with hk | hr
  · obtain ⟨t, ht, rfl, -⟩ := of_keptSlot hk
    exact h.below t ht
  · exact h.retiredBelow _ (of_draining (of_revivedSlot hr).2).1

/-- An instance that leaves: it was current, and no consumer of the new config has its name and its mode. -/
theorem of_retiring {cfg : Config} {s : Nat}
    (hs : s ∈ cfg.consumers.filterMap (replacedSlot old slots) ++ removed cfg old slots) :
    ∃ t ∈ oldTargets old, t.slot = s ∧ ∀ c ∈ cfg.consumers, c.name = (slots s).name → mode c.kind ≠ (slots s).mode := by
  rcases List.mem_append.mp hs with hs | hs
  · obtain ⟨c, hc, hr⟩ := List.mem_filterMap.mp hs
    obtain ⟨t, ht, rfl, name, hmode⟩ := of_replacedSlot hr
    refine ⟨t, ht, rfl, fun c' hc' name' => ?_⟩
    rw [List.inj_on_of_nodup_map cfg.consumerNames hc' hc (name'.trans name)]
    exact hmode.symm
  · cases old with
    | none => cases hs
    | some old =>
      obtain ⟨t, ht, rfl⟩ := List.mem_map.mp hs
      obtain ⟨ht, gone⟩ := List.mem_filter.mp ht
      refine ⟨t, ht, rfl, fun c hc name => ?_⟩
      simp only [Bool.not_eq_true', List.any_eq_false, decide_eq_true_eq] at gone
      exact absurd name (gone c hc)

theorem retiring_nodup (cfg : Config) :
    (cfg.consumers.filterMap (replacedSlot old slots) ++ removed cfg old slots).Nodup := by
  refine List.nodup_append.mpr ⟨?_, ?_, ?_⟩
  · refine List.Pairwise.filterMap _ (fun c c' ne s hs s' hs' same => ?_) (List.pairwise_map.mp cfg.consumerNames)
    subst same
    obtain ⟨-, -, -, name, -⟩ := of_replacedSlot hs
    obtain ⟨-, -, -, name', -⟩ := of_replacedSlot hs'
    exact ne (name.symm.trans name')
  · cases old with
    | none => exact List.nodup_nil
    | some old =>
      refine List.Nodup.map_on ?_ (List.Nodup.filter _ (List.Nodup.of_map _ (h.target_names ▸ h.consumerNames)))
      intro t ht t' ht' same
      exact h.target_unique (List.mem_filter.mp ht).1 (List.mem_filter.mp ht').1 (by rw [same])
  · rintro s hs s' hs' rfl
    obtain ⟨c, hc, hr⟩ := List.mem_filterMap.mp hs
    obtain ⟨-, -, -, name, -⟩ := of_replacedSlot hr
    cases old with
    | none => cases hs'
    | some old =>
      obtain ⟨t, ht, rfl⟩ := List.mem_map.mp hs'
      obtain ⟨-, gone⟩ := List.mem_filter.mp ht
      simp only [Bool.not_eq_true', List.any_eq_false, decide_eq_true_eq] at gone
      exact gone c hc name.symm

/-- What a plan leaves of the instances. -/
theorem instances_drafted {cfg : Config} {sourceNames : List Str} {d d' : Draft}
    (hd : d = { changes := { live := [], started := [], revived := [], retiring := [] }, targets := [], slots, allocated })
    (drafted : Drafted old slots retired allocated cfg.consumers sourceNames d d') :
    Instances cfg.consumers d'.targets
      (retired.filter (· ∉ d'.changes.revived) ++ (d'.changes.retiring ++ removed cfg old slots)) d'.allocated d'.slots := by
  subst hd
  obtain ⟨le, same, retiring, revived, ts, targets, planned⟩ := drafted
  simp only [List.nil_append] at le same retiring revived targets
  subst targets
  have leaving {s : Nat} (hs : s ∈ d'.changes.retiring ++ removed cfg old slots) :
      ∃ t ∈ oldTargets old, t.slot = s ∧ ∀ c ∈ cfg.consumers, c.name = (slots s).name → mode c.kind ≠ (slots s).mode :=
    of_retiring h (retiring ▸ hs)
  have staying {r : Nat} (hr : r ∈ retired.filter (· ∉ d'.changes.revived)) : r ∈ retired ∧ r ∉ d'.changes.revived := by
    simpa using hr
  have leavingBelow {s : Nat} (hs : s ∈ d'.changes.retiring ++ removed cfg old slots) : s < allocated := by
    obtain ⟨t, ht, rfl, -⟩ := leaving hs
    exact h.below t ht
  -- A slot planned for a consumer has its name and its mode and is open, wherever it comes from.
  have fits {c : Config.Consumer} {t : Target} (hp : Planned old slots retired allocated sourceNames d'.slots c t) :
      (d'.slots t.slot).name = c.name ∧ (d'.slots t.slot).mode = mode c.kind ∧ (d'.slots t.slot).closed = false := by
    rcases hp.origin with hk | hr | ⟨-, -, new⟩
    · obtain ⟨t', ht', slot, name, hmode⟩ := of_keptSlot hk
      rw [same _ (slot ▸ h.below t' ht')]
      exact ⟨name, hmode, slot ▸ h.current t' ht'⟩
    · obtain ⟨hr, name, hmode⟩ := of_draining (of_revivedSlot hr).2
      rw [same _ (h.retiredBelow _ hr)]
      exact ⟨name, hmode, h.draining _ hr⟩
    · rw [hp.fresh new]
      unfold newSlot
      cases hkind : c.kind <;> exact ⟨rfl, rfl, rfl⟩
  have newTarget {t : Target} (ht : t ∈ d'.targets) : ∃ c ∈ cfg.consumers, (d'.slots t.slot).name = c.name ∧
      (d'.slots t.slot).mode = mode c.kind ∧ (d'.slots t.slot).closed = false := by
    obtain ⟨c, hc, hp, -⟩ := (forall₂_exists planned).1 t ht
    exact ⟨c, hc, fits hp⟩
  refine {
    consumerNames := cfg.consumerNames
    matched := planned.imp fun c t hp => ⟨hp.1.target, (fits hp.1).1, (fits hp.1).2.1⟩
    below := fun t ht => ?_
    retiredBelow := fun r hr => ?_
    nodup := ?_
    single := fun r hr r' hr' => ?_
    apart := fun r hr t ht name hmode => ?_
    current := fun t ht => (newTarget ht).elim fun _ h => h.2.2.2
    draining := fun r hr => ?_ }
  · obtain ⟨c, -, -, lt⟩ := (forall₂_exists planned).1 t ht
    exact lt
  · rcases List.mem_append.mp hr with hr | hr
    · exact Nat.lt_of_lt_of_le (h.retiredBelow r (staying hr).1) le
    · exact Nat.lt_of_lt_of_le (leavingBelow hr) le
  · refine List.nodup_append.mpr ⟨h.nodup.filter _, retiring ▸ retiring_nodup h cfg, ?_⟩
    rintro r hr s hs rfl
    obtain ⟨t, ht, rfl, -⟩ := leaving hs
    exact h.apart _ (staying hr).1 t ht rfl rfl
  · -- Of two that drain, both did before, or both were current, or one did and the other was.
    rcases List.mem_append.mp hr with hr | hr <;> rcases List.mem_append.mp hr' with hr' | hr'
    · rw [same r (h.retiredBelow r (staying hr).1), same r' (h.retiredBelow r' (staying hr').1)]
      exact h.single r (staying hr).1 r' (staying hr').1
    · rw [same r (h.retiredBelow r (staying hr).1), same r' (leavingBelow hr')]
      obtain ⟨t, ht, rfl, -⟩ := leaving hr'
      exact fun name hmode => absurd hmode (h.apart r (staying hr).1 t ht name)
    · rw [same r (leavingBelow hr), same r' (h.retiredBelow r' (staying hr').1)]
      obtain ⟨t, ht, rfl, -⟩ := leaving hr
      exact fun name hmode => absurd hmode.symm (h.apart r' (staying hr').1 t ht name.symm)
    · rw [same r (leavingBelow hr), same r' (leavingBelow hr')]
      obtain ⟨t, ht, rfl, -⟩ := leaving hr
      obtain ⟨t', ht', rfl, -⟩ := leaving hr'
      exact fun name _ => by rw [h.target_unique ht ht' name]
  · obtain ⟨c, hc, name', hmode', -⟩ := newTarget ht
    rw [name'] at name
    rw [hmode'] at hmode
    rcases List.mem_append.mp hr with hr | hr
    · rw [same r (h.retiredBelow r (staying hr).1)] at name hmode
      refine (staying hr).2 (revived ▸ List.mem_filterMap.mpr ⟨c, hc, ?_⟩)
      exact revivedSlot_of_retired h (staying hr).1 name hmode
    · rw [same r (leavingBelow hr)] at name hmode
      obtain ⟨-, -, -, other⟩ := leaving hr
      exact other c hc name.symm hmode.symm
  · rcases List.mem_append.mp hr with hr | hr
    · rw [same r (h.retiredBelow r (staying hr).1)]
      exact h.draining r (staying hr).1
    · rw [same r (leavingBelow hr)]
      obtain ⟨t, ht, rfl, -⟩ := leaving hr
      exact h.current t ht

end Plan

/-! ### Runs -/

/-- The invariant of an engine. -/
def Shared.Instances (shared : Shared m) : Prop :=
  Engine.Instances shared.state.config.consumers shared.state.targets shared.retired shared.allocated shared.slots

/-- Committing a plan that was built keeps the invariant. -/
theorem instances_commit {cfg : Config} {old : Option (EngineState m)} {retired : List Nat} {slots : Nat → Slot}
    {allocated token : Nat} {changes : Changes} {state : EngineState m} (shared : Shared m) (new : Option (EngineState m))
    (h : Instances (oldConsumers old) (oldTargets old) retired allocated slots)
    (hbuild : Plan.build cfg old retired slots allocated token = .ok (state, changes, shared.slots, shared.allocated))
    (hretired : shared.retired = retired)
    (hstate : (shared.commit new changes).state = state) : (shared.commit new changes).Instances := by
  obtain ⟨planned, -, hconfig, -, namesGrew, d, hd, htargets, hslots, hallocated, hchanges⟩ := Plan.build_eq_ok hbuild
  have drafted := Plan.instances_drafted h rfl (hd ▸ Plan.drafted old slots retired cfg.consumers le_rfl (Plan.inherited_below h))
  subst hchanges
  have keeps := Shared.keeps_commit shared new { d.changes with
    retiring := d.changes.retiring ++ Plan.removed cfg old slots }
  unfold Shared.Instances
  rw [hstate, hconfig, htargets, Shared.commit_retired, hretired, keeps.allocated, hallocated]
  refine drafted.congr fun i _ => ?_
  rw [← hslots]
  exact ⟨(keeps.slots i).name, (keeps.slots i).mode, (keeps.slots i).closed⟩

theorem control_instances (shared : Shared m) (control : Control) (h : shared.Instances) :
    (shared.control control).Instances := by
  cases control with
  | apply new =>
    rcases shared.apply_cases new with ⟨error, happly⟩ | ⟨state, changes, slots, allocated, hbuild, happly⟩ <;>
      simp only [Shared.control, happly]
    · exact h
    · have before : Instances (oldConsumers (some shared.state)) (oldTargets (some shared.state)) _ _ _ := h
      exact instances_commit { shared with slots, allocated, tables := shared.tables + 1 } (some state) before hbuild rfl rfl
  | retire slot drain =>
    rcases shared.retire_cases slot drain with ⟨tasks, hr⟩ | ⟨mem, hr⟩ <;> rw [hr]
    · exact h
    · exact Instances.erase h mem fun i ne => Function.update_of_ne ne ..
  | setRuntimeEndpoint consumer source token endpoint =>
    simp only [Shared.control]
    rcases shared.setRuntimeEndpoint_cases consumer source token endpoint with hs | ⟨target, -, -, -, -, hs⟩ <;> rw [hs]
    · exact h
    · refine Instances.congr h fun i _ => ?_
      rw [Shared.modify_slots]
      by_cases hi : i = target.slot
      · subst hi
        rw [Function.update_self]
        refine ⟨rfl, ?_, rfl⟩
        simp only [Slot.mode]
        cases (shared.slots target.slot).consumer <;> rfl
      · rw [Function.update_of_ne hi]
        exact ⟨rfl, rfl, rfl⟩
  | setUsername source username =>
    simp only [Shared.control, Shared.setUsername]
    split
    · exact h
    · split
      · exact h
      · split <;> exact h

theorem run_instances {cfg : Config} {tokenKeys : Str → Nat} {engine : Shared m}
    (made : Shared.new cfg tokenKeys = .ok engine) (controls : List Control) : (engine.run controls).Instances := by
  obtain ⟨shared, slots, changes, hbuild, hretired, rfl, -⟩ := Shared.new_eq_ok made
  refine Shared.run_induction
    (instances_commit shared none ?_ hbuild hretired (shared.changeInstances_state changes)) control_instances controls
  exact ⟨List.nodup_nil, .nil, nofun, nofun, List.nodup_nil, nofun, nofun, nofun, nofun⟩

/-- In every state of a run, no instance is both current and draining, of a name and a mode one instance drains at
    most, and none that a current one has; no closed instance is current; and so of a name one push instance at most
    is current or draining. -/
theorem run_onePushInstance {cfg : Config} {tokenKeys : Str → Nat} {engine : Shared m}
    (made : Shared.new cfg tokenKeys = .ok engine) (controls : List Control) :
    let now := engine.run controls
    (∀ t ∈ now.state.targets, t.slot ∉ now.retired) ∧
    now.retired.Nodup ∧
    (∀ r ∈ now.retired, ∀ r' ∈ now.retired,
      (now.slots r).name = (now.slots r').name → (now.slots r).mode = (now.slots r').mode → r = r') ∧
    (∀ r ∈ now.retired, ∀ t ∈ now.state.targets,
      ¬((now.slots r).name = (now.slots t.slot).name ∧ (now.slots r).mode = (now.slots t.slot).mode)) ∧
    (∀ t ∈ now.state.targets, (now.slots t.slot).closed = false) ∧
    ∀ i ∈ now.state.targets.map (·.slot) ++ now.retired, ∀ j ∈ now.state.targets.map (·.slot) ++ now.retired,
      (now.slots i).mode = .push → (now.slots j).mode = .push → (now.slots i).name = (now.slots j).name → i = j := by
  intro now
  have h : Instances _ _ _ _ _ := run_instances made controls
  refine ⟨fun t ht hr => h.apart _ hr t ht rfl rfl, h.nodup, h.single, fun r hr t ht same => h.apart r hr t ht same.1 same.2,
    h.current, fun i hi j hj push push' name => ?_⟩
  rcases List.mem_append.mp hi with hi | hi <;> rcases List.mem_append.mp hj with hj | hj
  · obtain ⟨t, ht, rfl⟩ := List.mem_map.mp hi
    obtain ⟨t', ht', rfl⟩ := List.mem_map.mp hj
    rw [h.target_unique ht ht' name]
  · obtain ⟨t, ht, rfl⟩ := List.mem_map.mp hi
    exact absurd (push'.trans push.symm) (h.apart j hj t ht name.symm)
  · obtain ⟨t, ht, rfl⟩ := List.mem_map.mp hj
    exact absurd (push.trans push'.symm) (h.apart i hi t ht name)
  · exact h.single i hi j hj name (push.trans push'.symm)

/-- Bot `a` with its consumer `p` as a push consumer that accepts `setWebhook`. -/
def pushed : Config where
  bots := [oneRule [97] [1] 0]
  consumers := [{ id := 0, name := [112], kind := .push {
    endpoints := [], balance := .roundRobin, maxInFlight := 1, ordering := .none, capacity := 8, capacityBytes := 1024,
    onFull := .backpressure, retry := { initial := 1, max := 1, maxAttempts := 1, maxAge := 1 },
    breaker := { failureThreshold := 1, openFor := 1 }, acceptSetWebhook := true, webhookReply := .ignore,
    honorDropPending := false } }]
  botNames := alone.botNames
  tokens := alone.tokens
  consumerNames := by decide
  ids := by decide
  owned := by decide

/-- The engine started with `pushed`. -/
def pushedEngine : Shared literal := (Shared.new pushed List.length).toOption.get rfl

/-- A push consumer made a pull consumer and a push consumer again gets its first instance back. -/
theorem run_onePushInstance_switched :
    let now := pushedEngine.run [.apply alone, .apply pushed]
    now.state.targets.map (·.slot) = [0] ∧ now.retired = [1] ∧ ∀ t ∈ now.state.targets, t.slot ∉ now.retired := by
  have made : Shared.new pushed List.length = .ok pushedEngine := rfl
  exact ⟨by decide, by decide, (run_onePushInstance made [.apply alone, .apply pushed]).1⟩

end Tgin.Engine
