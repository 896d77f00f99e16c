import Tgin.Admission.Steps
import Tgin.Engine.Instances
import Tgin.Queue.Consume

/-! The engine with everything that acts on it: admissions, the control plane, the drains that end, and the consumers
    of the queues, each step of each party in any order. What becomes of every update a queue got is noted beside
    its slot. -/

namespace Tgin.Engine
open Queue Rules

variable {m : Matchers}

/-- A call on the slot's queue by its consumer, or by an operator, whose call counts what it drops. -/
def Slot.consume (op : Op Envelope) (s : Slot) : Slot :=
  if op.consumes then
    let (result, client) := Client.step op { queue := s.queue, permits := [] }
    let s := { s with queue := client.queue }
    if op.purges then s.count .purge result.dropped else s
  else s

/-- What becomes of the updates that such a call removes. -/
def fateOf : Op Envelope → Fate
  | .ackBelow holder _ | .ackAll holder | .ackSeq holder _ => .acked holder
  | _ => .purged

/-- The entries of a slot that another does not have. -/
def Slot.gone (s s' : Slot) : List (Nat × Entry Envelope) :=
  s.queue.inner.entries.toList.filter fun x => s'.queue.inner.entries[x.1]?.isNone

/-- An update that left a queue. -/
structure Departure where
  seq : Nat
  entry : Entry Envelope
  fate : Fate

/-- What a queue got and what became of it. -/
structure Trace where
  /-- The updates committed to the queue, by seq. -/
  arrived : List Envelope
  left : List Departure
  /-- The updates dropped for want of room that never were in the queue. -/
  skipped : Nat

def Trace.empty : Trace := { arrived := [], left := [], skipped := 0 }

/-- Notes a step that makes `s'` of the slot `s`. -/
def Trace.note (t : Trace) (fate : Fate) (skips : Nat) (s s' : Slot) : Trace where
  arrived := t.arrived ++ (s'.queue.inner.entries[s.queue.inner.nextSeq]?.map (·.item)).toList
  left := t.left ++ (s.gone s').map fun x => { seq := x.1, entry := x.2, fate }
  skipped := t.skipped + skips

variable (m) in
structure System where
  world : World m
  admissions : List (Admission m)
  /-- The slots closed for good whose last drain is still to come. -/
  closing : List Nat
  traces : Nat → Trace

inductive Action where
  /-- A source offers an update. -/
  | begin (update : Update)
  /-- An admission takes its next step. -/
  | step (admission : Nat) (clock : Instant)
  /-- The control plane acts. The end of a drain closes its slot; `drain` is the rest of it. -/
  | control (control : Control)
  | drain (slot : Nat)
  /-- A consumer or an operator calls the queue of an instance. -/
  | consume (slot : Nat) (op : Op Envelope)

namespace System

def slots (sys : System m) : Nat → Slot := sys.world.slots

def new (shared : Shared m) : System m where
  world := { shared, cursors := fun _ _ => 0, scratch := [] }
  admissions := []
  closing := []
  traces _ := .empty

def control (sys : System m) : Control → System m
  | .retire slot drain =>
    let shared := sys.world.shared
    if shared.tasks.contains (slot, drain) then
      let shared := { shared with tasks := shared.tasks.erase (slot, drain) }
      match shared.close slot drain with
      | none => { sys with world := { sys.world with shared } }
      | some shared => { sys with world := { sys.world with shared }, closing := sys.closing ++ [slot] }
    else sys
  | control => { sys with world := { sys.world with shared := sys.world.shared.control control } }

def act (sys : System m) : Action → System m
  | .begin update => { sys with admissions := sys.admissions ++ [.start update] }
  | .step i clock =>
    match sys.admissions[i]? with
    | none => sys
    | some a =>
      let (a, world) := a.step clock sys.world
      { sys with world, admissions := sys.admissions.set i a }
  | .control control => sys.control control
  | .drain slot =>
    if sys.closing.contains slot then
      { sys with world := sys.world.modify slot Slot.drainLate, closing := sys.closing.erase slot }
    else sys
  | .consume slot op =>
    if slot < sys.world.shared.allocated then { sys with world := sys.world.modify slot (Slot.consume op) } else sys

/-- What becomes of the updates that leave a queue with an action. -/
def fate (sys : System m) : Action → Fate
  | .step i _ => (sys.admissions[i]?.map Admission.fate).getD .evicted
  | .consume _ op => fateOf op
  | _ => .drained

/-- How many updates an action drops for a slot without any leaving its queue. -/
def skips (sys : System m) : Action → Nat → Nat
  | .step i _, slot => (sys.admissions[i]?.map fun a => a.skips sys.world slot).getD 0
  | _, _ => 0

def step (sys : System m) (action : Action) : System m :=
  { sys.act action with
    traces := fun i => (sys.traces i).note (sys.fate action) (sys.skips action i) (sys.slots i) ((sys.act action).slots i) }

def run (sys : System m) (actions : List Action) : System m := actions.foldl step sys

end System

/-! ### What the control plane does to a slot -/

/-- A slot that holds the same updates and counts the same drops. -/
structure Slot.Holds (s s' : Slot) : Prop where
  entries : s'.queue.inner.entries = s.queue.inner.entries
  nextSeq : s'.queue.inner.nextSeq = s.queue.inner.nextSeq
  dropped : s'.dropped = s.dropped
  exact : Exact s.queue.inner → Exact s'.queue.inner

theorem Slot.Holds.refl (s : Slot) : Holds s s := ⟨rfl, rfl, rfl, id⟩

theorem Slot.Kept.holds {s s' : Slot} (h : Kept s s') : Holds s s' := by
  obtain ⟨cfg, notified, hq⟩ := h.queue
  refine ⟨by rw [hq], by rw [hq], h.dropped, fun exact => ?_⟩
  rw [hq]
  exact LeaseQueue.setConfig_exact exact cfg

theorem Slot.Holds.update {slots : Nat → Slot} {slot : Nat} {s : Slot} (h : Holds (slots slot) s) (i : Nat) :
    Holds (slots i) (Function.update slots slot s i) := by
  by_cases hi : i = slot
  · subst hi
    rwa [Function.update_self]
  · rw [Function.update_of_ne hi]
    exact .refl _

/-- A slot that no instance has, or whose instance is new. -/
structure Slot.Unused (s : Slot) : Prop where
  entries : s.queue.inner.entries = ∅
  nextSeq : s.queue.inner.nextSeq = 0
  dropped : s.dropped = fun _ => 0
  closed : s.closed = false
  exact : Exact s.queue.inner

theorem Slot.unused_new (address : Nat) (name : Str) (consumer : Consumer) (cfg : QueueConfig) :
    (Slot.new address name consumer cfg).Unused := ⟨rfl, rfl, rfl, rfl, exact_new address cfg⟩

theorem Slot.unused_newSlot (address : Nat) (c : Config.Consumer) (sourceNames : List Str) :
    (newSlot address c sourceNames).Unused := by
  unfold newSlot
  cases c.kind <;> exact unused_new ..

theorem Slot.Unused.holds {s s' : Slot} (h : s.Unused) (h' : s'.Unused) : Holds s s' :=
  ⟨h'.entries.trans h.entries.symm, h'.nextSeq.trans h.nextSeq.symm, h'.dropped.trans h.dropped.symm, fun _ => h'.exact⟩

theorem Slot.Unused.of_kept {s s' : Slot} (h : s.Unused) (kept : Kept s s') : s'.Unused :=
  have holds := kept.holds
  ⟨holds.entries.trans h.entries, holds.nextSeq.trans h.nextSeq, holds.dropped.trans h.dropped, kept.closed.trans h.closed,
    holds.exact h.exact⟩

namespace Plan
variable {old : Option (EngineState m)} {slots : Nat → Slot} {retired : List Nat} {namesGrew : Bool} {sourceNames : List Str}

/-- Planning gives out unused slots only, and leaves the others as they are. -/
theorem foldl_unused (cs : List Config.Consumer) {d : Draft} (unused : ∀ i, d.allocated ≤ i → (d.slots i).Unused) :
    let d' := cs.foldl (consumer old slots retired namesGrew sourceNames) d
    d.allocated ≤ d'.allocated ∧ (∀ i < d.allocated, d'.slots i = d.slots i) ∧ ∀ i, d.allocated ≤ i → (d'.slots i).Unused := by
  induction cs generalizing d with
  | nil => exact ⟨le_rfl, fun _ _ => rfl, unused⟩
  | cons c cs ih =>
    obtain ⟨slot, -, -, -, h⟩ := consumer_spec old slots retired namesGrew sourceNames d c
    rw [List.foldl_cons]
    generalize consumer old slots retired namesGrew sourceNames d c = d₁ at h ⊢
    rcases h with ⟨-, hs, ha⟩ | ⟨-, -, rfl, hs, ha⟩
    · rw [← ha, ← hs]
      exact ih fun i hi => by
        rw [hs]
        exact unused i (ha ▸ hi)
    · have unused₁ (i : Nat) (hi : d.allocated ≤ i) : (d₁.slots i).Unused := by
        rw [hs]
        by_cases new : i = d.allocated
        · subst new
          rw [Function.update_self]
          exact Slot.unused_newSlot ..
        · rw [Function.update_of_ne new]
          exact unused i hi
      obtain ⟨le, same, rest⟩ := ih fun i hi => unused₁ i (by omega)
      refine ⟨by omega, fun i hi => ?_, fun i hi => ?_⟩
      · rw [same i (by omega), hs, Function.update_of_ne (Nat.ne_of_lt hi)]
      · by_cases new : i = d.allocated
        · rw [same i (by omega)]
          exact unused₁ i hi
        · exact rest i (by omega)

end Plan

/-- What the slots and the instances of an engine keep. -/
structure Shared.Sound (shared : Shared m) : Prop where
  instances : shared.Instances
  exact : ∀ i, Exact (shared.slots i).queue.inner
  unused : ∀ i, shared.allocated ≤ i → (shared.slots i).Unused

/-- What an operation leaves of an engine; `closes` are the slots it closes. -/
structure Shared.Leaves (shared : Shared m) (closes : List Nat) (shared' : Shared m) : Prop where
  sound : shared'.Sound
  allocated : shared.allocated ≤ shared'.allocated
  slots : ∀ i, (shared.slots i).Holds (shared'.slots i)
  closed : ∀ i, (shared'.slots i).closed = true ↔ (shared.slots i).closed = true ∨ i ∈ closes

namespace Shared

/-- Changing one slot that an instance has, and nothing the instances are told apart by. -/
theorem Sound.modify {shared : Shared m} (h : shared.Sound) {slot : Nat} {f : Slot → Slot} (known : slot < shared.allocated)
    (same : (f (shared.slots slot)).name = (shared.slots slot).name ∧
      (f (shared.slots slot)).mode = (shared.slots slot).mode ∧ (f (shared.slots slot)).closed = (shared.slots slot).closed)
    (exact : Exact (f (shared.slots slot)).queue.inner) : (shared.modify slot f).Sound := by
  refine ⟨Instances.congr h.instances fun i _ => ?_, fun i => ?_, fun i hi => ?_⟩ <;> rw [modify_slots]
  · by_cases hi : i = slot
    · subst hi
      rwa [Function.update_self]
    · rw [Function.update_of_ne hi]
      exact ⟨rfl, rfl, rfl⟩
  · by_cases hi : i = slot
    · subst hi
      rwa [Function.update_self]
    · rw [Function.update_of_ne hi]
      exact h.exact i
  · rw [Function.update_of_ne (Nat.ne_of_gt (Nat.lt_of_lt_of_le known hi))]
    exact h.unused i hi

/-- An operation that leaves the closed slots as they are. -/
theorem Leaves.of_closed {shared shared' : Shared m} (sound : shared'.Sound) (allocated : shared.allocated ≤ shared'.allocated)
    (slots : ∀ i, (shared.slots i).Holds (shared'.slots i))
    (closed : ∀ i, (shared'.slots i).closed = (shared.slots i).closed) : Leaves shared [] shared' :=
  ⟨sound, allocated, slots, fun i => by rw [closed, or_iff_left List.not_mem_nil]⟩

theorem Leaves.refl {shared : Shared m} (h : shared.Sound) : Leaves shared [] shared :=
  .of_closed h le_rfl (fun _ => .refl _) fun _ => rfl

/-- A reload. -/
theorem apply_leaves {shared : Shared m} (h : shared.Sound) (new : Config) :
    Leaves shared [] (shared.control (.apply new)) := by
  have instances := control_instances shared (.apply new) h.instances
  rcases shared.apply_cases new with ⟨error, happly⟩ | ⟨state, changes, slots, allocated, hbuild, happly⟩ <;>
    simp only [control, happly] at instances ⊢
  · exact .refl h
  · obtain ⟨planned, -, -, -, namesGrew, d, hd, -, rfl, rfl, -⟩ := Plan.build_eq_ok hbuild
    obtain ⟨le, same, unused⟩ : shared.allocated ≤ d.allocated ∧ (∀ i < shared.allocated, d.slots i = shared.slots i) ∧
        ∀ i, shared.allocated ≤ i → (d.slots i).Unused := by
      subst hd
      exact Plan.foldl_unused new.consumers (d := {
        changes := { live := [], started := [], revived := [], retiring := [] }, targets := [], slots := shared.slots
        allocated := shared.allocated }) h.unused
    set planned : Shared m := { shared with slots := d.slots, allocated := d.allocated, tables := shared.tables + 1 }
    have keeps := keeps_commit planned (some state) changes
    have holds (i : Nat) : (shared.slots i).Holds ((planned.commit (some state) changes).slots i) := by
      by_cases hi : i < shared.allocated
      · have kept := keeps.slots i
        rw [show planned.slots i = shared.slots i from same i hi] at kept
        exact kept.holds
      · have hi := Nat.le_of_not_lt hi
        exact (h.unused i hi).holds ((unused i hi).of_kept (keeps.slots i))
    refine .of_closed ⟨instances, fun i => (holds i).exact (h.exact i), fun i hi => ?_⟩ (keeps.allocated ▸ le) holds fun i => ?_
    · exact (unused i (le.trans ((Nat.le_of_eq keeps.allocated.symm).trans hi))).of_kept (keeps.slots i)
    · refine (keeps.slots i).closed.trans ?_
      by_cases hi : i < shared.allocated
      · rw [show planned.slots i = shared.slots i from same i hi]
      · have hi := Nat.le_of_not_lt hi
        exact (unused i hi).closed.trans (h.unused i hi).closed.symm

theorem setRuntimeEndpoint_leaves {shared : Shared m} (h : shared.Sound) (consumer : Str) (source : SourceId) (token : Str)
    (endpoint : Option (Str × Option Str)) :
    Leaves shared [] (shared.control (.setRuntimeEndpoint consumer source token endpoint)) := by
  simp only [control]
  rcases shared.setRuntimeEndpoint_cases consumer source token endpoint with hs | ⟨target, -, found, -, -, hs⟩ <;> rw [hs]
  · exact .refl h
  · have known : target.slot < shared.allocated := Instances.below h.instances target (List.mem_of_find?_eq_some found)
    refine .of_closed (h.modify known ⟨rfl, ?_, rfl⟩ (h.exact target.slot)) le_rfl (.update ⟨rfl, rfl, rfl, id⟩)
      (shared.modify_field Slot.closed rfl)
    simp only [Slot.mode]
    cases (shared.slots target.slot).consumer <;> rfl

theorem setUsername_leaves {shared : Shared m} (h : shared.Sound) (source : SourceId) (username : Option Str) :
    Leaves shared [] (shared.control (.setUsername source username)) := by
  have instances := control_instances shared (.setUsername source username) h.instances
  have same : (shared.control (.setUsername source username)).slots = shared.slots ∧
      (shared.control (.setUsername source username)).allocated = shared.allocated := by
    simp only [control, setUsername]
    split
    · exact ⟨rfl, rfl⟩
    · split
      · exact ⟨rfl, rfl⟩
      · split <;> exact ⟨rfl, rfl⟩
  obtain ⟨slots, allocated⟩ := same
  refine .of_closed ⟨instances, slots ▸ h.exact, by rw [slots, allocated]; exact h.unused⟩ (allocated ▸ le_rfl)
    (fun i => ?_) fun i => ?_ <;> rw [slots]
  exact .refl _

/-- The first part of the end of a drain. -/
theorem close_leaves {shared closed : Shared m} (h : shared.Sound) {slot drain : Nat}
    (hc : shared.close slot drain = some closed) :
    Leaves shared [slot] closed ∧ slot < shared.allocated := by
  obtain ⟨-, mem, rfl⟩ := close_eq_some hc
  have known := Instances.retiredBelow h.instances slot mem
  refine ⟨⟨⟨Instances.erase h.instances mem fun i ne => Function.update_of_ne ne .., fun i => ?_, fun i hi => ?_⟩, le_rfl,
    .update ⟨rfl, rfl, rfl, id⟩, fun i => ?_⟩, known⟩ <;> rw [modify_slots]
  · by_cases hi : i = slot
    · subst hi
      rw [Function.update_self]
      exact h.exact i
    · rw [Function.update_of_ne hi]
      exact h.exact i
  · rw [Function.update_of_ne (Nat.ne_of_gt (Nat.lt_of_lt_of_le known hi))]
    exact h.unused i hi
  · by_cases hi : i = slot
    · subst hi
      rw [Function.update_self]
      simp
    · rw [Function.update_of_ne hi]
      simp [hi]

end Shared

/-- The tasks of an engine do not matter. -/
theorem Shared.Sound.with_tasks {shared : Shared m} (h : shared.Sound) (tasks : List (Nat × Nat)) :
    Shared.Sound { shared with tasks } := ⟨h.instances, h.exact, h.unused⟩

/-- What the control plane does: it leaves the slots as they are, but may close one, whose last drain is to come. -/
theorem System.control_leaves {sys : System m} (h : sys.world.shared.Sound) (control : Control) :
    (sys.control control).admissions = sys.admissions ∧ ∃ closes,
      sys.world.shared.Leaves closes (sys.control control).world.shared ∧
      (sys.control control).closing = sys.closing ++ closes ∧ ∀ i ∈ closes, i < sys.world.shared.allocated := by
  have nothing {sys' : System m} (leaves : sys.world.shared.Leaves [] sys'.world.shared) (closing : sys'.closing = sys.closing) :
      ∃ closes, sys.world.shared.Leaves closes sys'.world.shared ∧ sys'.closing = sys.closing ++ closes ∧
        ∀ i ∈ closes, i < sys.world.shared.allocated := ⟨[], leaves, closing.trans (List.append_nil _).symm, nofun⟩
  cases control with
  | apply new => exact ⟨rfl, nothing (Shared.apply_leaves h new) rfl⟩
  | setRuntimeEndpoint consumer source token endpoint =>
    exact ⟨rfl, nothing (Shared.setRuntimeEndpoint_leaves h consumer source token endpoint) rfl⟩
  | setUsername source username => exact ⟨rfl, nothing (Shared.setUsername_leaves h source username) rfl⟩
  | retire slot drain =>
    simp only [System.control]
    split
    · have h' := h.with_tasks (sys.world.shared.tasks.erase (slot, drain))
      cases hc : Shared.close { sys.world.shared with tasks := sys.world.shared.tasks.erase (slot, drain) } slot drain with
      | none => exact ⟨rfl, nothing (.of_closed h' le_rfl (fun _ => .refl _) fun _ => rfl) rfl⟩
      | some closed =>
        obtain ⟨leaves, known⟩ := Shared.close_leaves h' hc
        refine ⟨rfl, [slot], ⟨leaves.sound, leaves.allocated, leaves.slots, leaves.closed⟩, rfl, fun i hi => ?_⟩
        obtain rfl := List.mem_singleton.mp hi
        exact known
    · exact ⟨rfl, nothing (.refl h) rfl⟩

/-! ### What an admission does to the rest -/

/-- The targets an admission still has to do with. -/
def Pc.targets : Pc m → List Target
  | .load => []
  | .route state => state.targets
  | .visit left permits => left ++ permits.map (·.1)
  | .reserve target left permits | .reserving _ target left permits => target :: (left ++ permits.map (·.1))
  | .cancel permits _ | .commit permits => permits.map (·.1)
  | .committed target permits => target :: permits.map (·.1)
  | .done _ => []

theorem visits_subset (targets : List Target) (ids : List ConsumerId) : visits targets ids ⊆ targets := by
  intro t ht
  obtain ⟨pass, -, ht⟩ := List.mem_flatMap.mp ht
  obtain ⟨id, -, hid⟩ := List.mem_filterMap.mp (List.mem_filter.mp ht).1
  exact List.mem_of_getElem? hid

/-- An admission comes to a target it had to do with, or to one of the current state. -/
theorem Admission.step_targets (a : Admission m) (clock : Instant) (world : World m) :
    ∀ t ∈ (a.step clock world).1.pc.targets, t ∈ a.pc.targets ∨ t ∈ world.shared.state.targets := by
  intro t ht
  have next := a.step_next clock world
  generalize a.pc = pc, (a.step clock world).1.pc = pc' at next ht ⊢
  cases next with
  | load => exact .inr ht
  | routed => exact .inl (visits_subset _ _ (by simpa [Pc.targets] using ht))
  | visited | reserve | reserving | committed => exact .inl ht
  | closed => exact .inl (List.mem_append_right _ ht)
  | reserved permit =>
    simp only [Pc.targets, List.map_append, List.map_cons, List.map_nil, List.mem_cons, List.mem_append, List.not_mem_nil,
      or_false] at ht ⊢
    tauto
  | skipped | dropped | drained => exact .inl (List.mem_cons_of_mem _ ht)
  | backpressure => exact .inl (List.mem_cons_of_mem _ (List.mem_append_right _ ht))
  | unroutable | answered | again | admitted | done => cases ht

/-- What an admission at `pc` may do to the world in one step: route, act on the slot of a target, drop a permit. -/
inductive World.Next (world : World m) (pc : Pc m) : World m → Prop where
  | same : Next world pc world
  | routed {state : EngineState m} (update : Update) (route : pc = .route state) : Next world pc (world.route state update).2
  | modified {target : Target} (mem : target ∈ pc.targets) (f : Slot → Slot) : Next world pc (world.modify target.slot f)
  /-- The permit is of another queue. -/
  | foreign {target : Target} (mem : target ∈ pc.targets) (permit : Permit) (f : Slot → Slot) :
    Next world pc ((world.dropPermit permit.reservations permit).modify target.slot f)

theorem Admission.step_world (a : Admission m) (clock : Instant) (world : World m) :
    World.Next world a.pc (a.step clock world).2 := by
  cases hpc : a.pc with
  | load | reserve | done =>
    simp only [step, hpc]
    exact .same
  | route state =>
    have routed : World.Next world (.route state) (world.route state a.update).2 := .routed a.update rfl
    simp only [step, hpc]
    split <;> exact routed
  | visit left permits =>
    cases left <;> simp only [step, hpc]
    · exact .same
    · split <;> exact .same
  | reserving items target left permits =>
    simp only [step, hpc]
    split <;> exact .modified List.mem_cons_self _
  | cancel permits answer =>
    rcases permits with _ | ⟨held, permits⟩
    · cases answer <;> simp only [step, hpc]
      · split <;> exact .same
      · exact .same
    · simp only [step, hpc]
      exact .modified List.mem_cons_self _
  | commit permits =>
    rcases permits with _ | ⟨held, permits⟩ <;> simp only [step, hpc]
    · exact .same
    · split
      · exact .modified List.mem_cons_self _
      · exact .foreign List.mem_cons_self _ _
  | committed target permits =>
    simp only [step, hpc]
    split
    · exact .modified List.mem_cons_self _
    · exact .same

/-- An admission changes slots only. -/
theorem Admission.step_shared (a : Admission m) (clock : Instant) (world : World m) :
    ∃ slots, (a.step clock world).2.shared = { world.shared with slots } := by
  have next := a.step_world clock world
  generalize (a.step clock world).2 = world' at next ⊢
  cases next <;> exact ⟨_, rfl⟩

/-- A slot that an admission has nothing to do with keeps what it holds. -/
theorem Admission.step_others (a : Admission m) (clock : Instant) (world : World m) {i : Nat}
    (others : ∀ t ∈ a.pc.targets, t.slot ≠ i) :
    (a.step clock world).2.slots i = world.slots i ∨
      ∃ permit, (a.step clock world).2.slots i = (world.slots i).dropPermit permit := by
  have elsewhere {world : World m} {slot : Nat} {f : Slot → Slot} (ne : slot ≠ i) :
      (world.modify slot f).slots i = world.slots i :=
    Function.update_of_ne (Ne.symm ne) ..
  have next := a.step_world clock world
  generalize (a.step clock world).2 = world' at next ⊢
  cases next with
  | same | routed => exact .inl rfl
  | modified mem => exact .inl (elsewhere (others _ mem))
  | foreign mem permit =>
    rw [elsewhere (others _ mem)]
    by_cases hp : permit.reservations = i
    · rw [World.dropPermit, World.modify_slots, hp, Function.update_self]
      exact .inr ⟨permit, rfl⟩
    · exact .inl (elsewhere hp)

theorem Slot.Effect.same_instance {update : Update} {now : Instant} {commits : Prop} {s s' : Slot} {fate : Fate} {skips : Nat}
    (h : s.Effect update now commits fate skips s') : s'.name = s.name ∧ s'.mode = s.mode ∧ s'.closed = s.closed := by
  cases h <;> exact ⟨rfl, rfl, rfl⟩

/-- What an admission leaves of the engine. -/
theorem Admission.step_sound (a : Admission m) (clock : Instant) {world : World m} (h : world.shared.Sound)
    (known : ∀ t ∈ a.pc.targets, t.slot < world.shared.allocated) :
    (a.step clock world).2.shared.Sound ∧ (a.step clock world).2.shared.allocated = world.shared.allocated ∧
      (a.step clock world).2.shared.state = world.shared.state := by
  have effect := a.step_effect clock h.exact
  have others (i : Nat) (hi : world.shared.allocated ≤ i) := a.step_others clock world
    (i := i) fun t ht => Nat.ne_of_lt (Nat.lt_of_lt_of_le (known t ht) hi)
  obtain ⟨slots, same⟩ := a.step_shared clock world
  have hslots : (a.step clock world).2.slots = slots := congrArg Shared.slots same
  rw [hslots] at effect others
  rw [same]
  refine ⟨⟨Instances.congr h.instances fun i _ => (effect i).same_instance, fun i => (effect i).exact (h.exact i),
    fun i hi => ?_⟩, rfl, rfl⟩
  have unused := h.unused i hi
  change (slots i).Unused
  rcases others i hi with hs | ⟨permit, hs⟩ <;> rw [hs]
  · exact unused
  · exact ⟨unused.entries, unused.nextSeq, unused.dropped, unused.closed, unused.exact⟩

/-- A consumer's call, and what it leaves. -/
theorem Slot.consume_cases {s : Slot} (exact : Exact s.queue.inner) (op : Op Envelope) :
    s.consume op = s ∨ op.consumes ∧ ∃ queue, Consumed op s.queue queue ∧
      s.consume op = (if op.purges then
        Slot.count { s with queue } .purge (s.queue.inner.entries.toList.filter op.removes).length
      else { s with queue }) := by
  unfold Slot.consume
  by_cases h : op.consumes
  · obtain ⟨consumed, count, -⟩ := Client.step_consumes h exact
    refine .inr ⟨h, _, consumed, ?_⟩
    rw [if_pos h]
    by_cases purges : op.purges
    · rw [← count purges]
    · simp only [purges]
      rfl
  · exact .inl (if_neg h)

theorem Slot.consume_same {s : Slot} (exact : Exact s.queue.inner) (op : Op Envelope) :
    ((s.consume op).name = s.name ∧ (s.consume op).mode = s.mode ∧ (s.consume op).closed = s.closed) ∧
      Exact (s.consume op).queue.inner := by
  rcases Slot.consume_cases exact op with hs | ⟨-, queue, consumed, hs⟩ <;> rw [hs]
  · exact ⟨⟨rfl, rfl, rfl⟩, exact⟩
  · split <;> exact ⟨⟨rfl, rfl, rfl⟩, consumed.exact⟩

namespace System

/-- What the system keeps: its engine is sound, admissions come to instances that exist, and the slots whose last
    drain is to come are closed. -/
structure Sound (sys : System m) : Prop where
  shared : sys.world.shared.Sound
  known : ∀ a ∈ sys.admissions, ∀ t ∈ a.pc.targets, t.slot < sys.world.shared.allocated
  closing : ∀ i ∈ sys.closing, i < sys.world.shared.allocated ∧ (sys.slots i).closed = true

/-- A new engine holds nothing. -/
theorem unused_new {cfg : Config} {tokenKeys : Str → Nat} {engine : Shared m} (made : Shared.new cfg tokenKeys = .ok engine)
    (i : Nat) : (engine.slots i).Unused := by
  obtain ⟨shared, slots, changes, hbuild, -, rfl, -, queue, empty⟩ := Shared.new_eq_ok made
  obtain ⟨planned, -, -, -, namesGrew, d, hd, -, hslots, hallocated, -⟩ := Plan.build_eq_ok hbuild
  refine Slot.Unused.of_kept ?_ ((Shared.keeps_commit shared none changes).slots i)
  rw [hslots, hd]
  refine (Plan.foldl_unused cfg.consumers (d := {
    changes := { live := [], started := [], revived := [], retiring := [] }, targets := [], slots, allocated := 0 })
    fun i _ => ?_).2.2 i (Nat.zero_le i)
  change (slots i).Unused
  rw [empty]
  exact Slot.unused_new ..

theorem sound_new {cfg : Config} {tokenKeys : Str → Nat} {engine : Shared m} (made : Shared.new cfg tokenKeys = .ok engine) :
    (new engine).Sound :=
  ⟨⟨run_instances made [], fun i => (unused_new made i).exact, fun i _ => unused_new made i⟩,
    fun _ ha => (nomatch ha), fun _ hi => (nomatch hi)⟩

/-- A slot that is closed stays closed. -/
theorem act_closed {sys : System m} (h : sys.Sound) (action : Action) {i : Nat} (closed : (sys.slots i).closed = true) :
    ((sys.act action).slots i).closed = true := by
  have modify {slot : Nat} {f : Slot → Slot} (same : (f (sys.slots slot)).closed = (sys.slots slot).closed) :
      ((sys.world.modify slot f).slots i).closed = true := (World.modify_field Slot.closed same i).trans closed
  cases action with
  | begin update => exact closed
  | step j clock =>
    simp only [act]
    split
    · exact closed
    · rename_i a _
      exact ((a.step_effect clock h.shared.exact i).same_instance.2.2).trans closed
  | control control =>
    obtain ⟨-, closes, leaves, -⟩ := control_leaves h.shared control
    exact (leaves.closed i).mpr (.inl closed)
  | drain slot =>
    simp only [act]
    split
    · exact modify rfl
    · exact closed
  | consume slot op =>
    simp only [act]
    split
    · exact modify (Slot.consume_same (h.shared.exact slot) op).1.2.2
    · exact closed

theorem act_sound {sys : System m} (h : sys.Sound) (action : Action) :
    (sys.act action).Sound ∧ sys.world.shared.allocated ≤ (sys.act action).world.shared.allocated := by
  cases action with
  | begin update =>
    refine ⟨⟨h.shared, fun a ha => ?_, h.closing⟩, le_rfl⟩
    rcases List.mem_append.mp ha with ha | ha
    · exact h.known a ha
    · obtain rfl := List.mem_singleton.mp ha
      exact nofun
  | step j clock =>
    simp only [act]
    split
    · exact ⟨h, le_rfl⟩
    · rename_i a ha
      have ha := List.mem_of_getElem? ha
      obtain ⟨sound, allocated, state⟩ := a.step_sound clock h.shared (h.known a ha)
      refine ⟨⟨sound, fun b hb t ht => ?_, fun i hi => ?_⟩, allocated ▸ le_rfl⟩ <;> dsimp only at * <;> rw [allocated]
      · rcases List.mem_or_eq_of_mem_set hb with hb | rfl
        · exact h.known b hb t ht
        · rcases a.step_targets clock sys.world t ht with ht | ht
          · exact h.known a ha t ht
          · exact Instances.below h.shared.instances t ht
      · exact ⟨(h.closing i hi).1, ((a.step_effect clock h.shared.exact i).same_instance.2.2).trans (h.closing i hi).2⟩
  | control control =>
    obtain ⟨admissions, closes, leaves, closing, known⟩ := control_leaves h.shared control
    refine ⟨⟨leaves.sound, fun a ha t ht => ?_, fun i hi => ?_⟩, leaves.allocated⟩
    · exact Nat.lt_of_lt_of_le (h.known a (admissions ▸ ha) t ht) leaves.allocated
    · rcases List.mem_append.mp (closing ▸ hi : i ∈ sys.closing ++ closes) with hi | hi
      · exact ⟨Nat.lt_of_lt_of_le (h.closing i hi).1 leaves.allocated, (leaves.closed i).mpr (.inl (h.closing i hi).2)⟩
      · exact ⟨Nat.lt_of_lt_of_le (known i hi) leaves.allocated, (leaves.closed i).mpr (.inr hi)⟩
  | drain slot =>
    simp only [act]
    split
    · rename_i mem
      have known := (h.closing slot (by simpa using mem)).1
      refine ⟨⟨h.shared.modify known ⟨rfl, rfl, rfl⟩ (LeaseQueue.drainAll_exact _), h.known, fun i hi => ?_⟩, le_rfl⟩
      obtain ⟨lt, closed⟩ := h.closing i (List.mem_of_mem_erase hi)
      exact ⟨lt, (World.modify_field Slot.closed rfl i).trans closed⟩
    · exact ⟨h, le_rfl⟩
  | consume slot op =>
    simp only [act]
    split
    · rename_i known
      obtain ⟨same, exact⟩ := Slot.consume_same (h.shared.exact slot) op
      refine ⟨⟨h.shared.modify known same exact, h.known, fun i hi => ?_⟩, le_rfl⟩
      exact ⟨(h.closing i hi).1, (World.modify_field Slot.closed same.2.2 i).trans (h.closing i hi).2⟩
    · exact ⟨h, le_rfl⟩

theorem step_sound {sys : System m} (h : sys.Sound) (action : Action) : (sys.step action).Sound := by
  obtain ⟨⟨shared, known, closing⟩, -⟩ := act_sound h action
  exact ⟨shared, known, closing⟩

/-- What every step keeps of a sound system holds after every run. -/
theorem run_induction {P : System m → Prop} {sys : System m} (h : sys.Sound) (start : P sys)
    (step : ∀ sys action, sys.Sound → P sys → P (sys.step action)) (actions : List Action) :
    (sys.run actions).Sound ∧ P (sys.run actions) := by
  induction actions generalizing sys with
  | nil => exact ⟨h, start⟩
  | cons action actions ih => exact ih (step_sound h action) (step sys action h start)

theorem run_append (sys : System m) (actions actions' : List Action) :
    sys.run (actions ++ actions') = (sys.run actions).run actions' := List.foldl_append

end System

end Tgin.Engine
