import Mathlib.Data.List.Nodup
import Tgin.Parking

/-! What the operations of a job keep: the gateway refuses the calls of the bots that are parked, and a parked bot has
    neither a source nor a route that takes updates. -/

namespace Tgin.Parking
open Rules
open Gateway (Gate)

namespace System

variable {X : Type} {s : System X}

/-- The bot has no stop token that is not cancelled. -/
def Cancelled (s : System X) (name : Str) : Prop := ∀ token, s.stops name = some token → s.tokens.cancelled token = true

/-- What holds between any two operations on the sources. -/
structure Sound (s : System X) : Prop where
  /-- The gateway's gates say what is parked. -/
  gates : ∀ entry ∈ s.table, entry.gate.parked = s.parked entry.bot.name
  stopped : ∀ name, s.parked name = true → s.started name = none ∧ s.Cancelled name
  /-- A route answers by its bot's stop token, or by a cancelled one. -/
  routes : ∀ routes, s.routes = some routes → ∀ route ∈ routes,
    s.tokens.cancelled route.2 = true ∨ s.stops route.1 = some route.2

/-- What an operation on the source of `name` leaves alone. -/
structure Frame (name : Str) (s s' : System X) : Prop where
  cfg : s'.cfg = s.cfg
  routes : s'.routes = s.routes
  parked : ∀ other, other ≠ name → s'.parked other = s.parked other
  started : ∀ other, other ≠ name → s'.started other = s.started other
  stops : ∀ other, other ≠ name → s'.stops other = s.stops other
  cancelled : ∀ token, s.tokens.cancelled token = true → s'.tokens.cancelled token = true

theorem gates_setParked (gates : ∀ entry ∈ s.table, entry.gate.parked = s.parked entry.bot.name) (name : Str) (value : Bool) :
    ∀ entry ∈ (s.setParked name value).table,
      entry.gate.parked = Function.update s.parked name value entry.bot.name := by
  intro entry h
  obtain ⟨before, hb, rfl⟩ := List.mem_map.mp h
  by_cases same : before.bot.name = name
  · rw [if_pos same, same, Function.update_self]
    rfl
  · rw [if_neg same, Function.update_of_ne same]
    exact gates before hb

variable {s' : System X} {name : Str}

theorem Frame.trans {s'' : System X} (h : Frame name s s') (h' : Frame name s' s'') : Frame name s s'' where
  cfg := h'.cfg.trans h.cfg
  routes := h'.routes.trans h.routes
  parked other ne := (h'.parked other ne).trans (h.parked other ne)
  started other ne := (h'.started other ne).trans (h.started other ne)
  stops other ne := (h'.stops other ne).trans (h.stops other ne)
  cancelled token ht := h'.cancelled token (h.cancelled token ht)

theorem Frame.refl (name : Str) (s : System X) : Frame name s s :=
  ⟨rfl, rfl, fun _ _ => rfl, fun _ _ => rfl, fun _ _ => rfl, fun _ h => h⟩

theorem Sound.of_frame (h : Sound s) (frame : Frame name s s')
    (gates : ∀ entry ∈ s'.table, entry.gate.parked = s'.parked entry.bot.name)
    (stopped : s'.parked name = true → s'.started name = none ∧ s'.Cancelled name)
    (token : ∀ token, s.stops name = some token → s'.tokens.cancelled token = true ∨ s'.stops name = some token) :
    Sound s' := by
  refine ⟨gates, fun other parked => ?_, fun routes hr route mem => ?_⟩
  · by_cases same : other = name
    · exact same ▸ stopped (same ▸ parked)
    · obtain ⟨started, cancelled⟩ := h.stopped other (frame.parked other same ▸ parked)
      refine ⟨(frame.started other same).trans started, fun token ht => ?_⟩
      exact frame.cancelled token (cancelled token (frame.stops other same ▸ ht))
  · rcases h.routes routes (frame.routes ▸ hr) route mem with cancelled | stops
    · exact .inl (frame.cancelled _ cancelled)
    · by_cases same : route.1 = name
      · rw [same] at stops ⊢
        exact token _ stops
      · exact .inr ((frame.stops _ same).trans stops)

/-! ### Stopping, parking and unparking -/

theorem frame_stop (s : System X) (name : Str) (why : Stop) : Frame name s (s.stop name why) := by
  constructor
  · cases why <;> rfl
  · cases why <;> rfl
  · intro other ne
    cases why with
    | botGone => exact Function.update_of_ne ne _ _
    | _ => rfl
  · intro other ne
    cases why <;> exact Function.update_of_ne ne _ _
  · intro other ne
    cases why with
    | restart => rfl
    | _ => exact Function.update_of_ne ne _ _
  · intro token h
    cases why <;> exact Bool.or_eq_true_iff.mpr (.inl h)

/-- After a stop the bot has no token that takes updates, and what of its parking is left. -/
theorem stop_self (s : System X) (name : Str) (why : Stop) :
    (s.stop name why).Cancelled name ∧ (s.stop name why).started name = none ∧
      (s.stop name why).parked name = (s.parked name && why ≠ .botGone) ∧
      (s.stop name why).stops name = (if why = .restart then s.stops name else none) := by
  refine ⟨fun token h => ?_, ?_, ?_, ?_⟩
  · cases why with
    | restart =>
      refine Bool.or_eq_true_iff.mpr (.inr (decide_eq_true ?_))
      exact h
    | _ =>
      have : Function.update s.stops name none name = some token := h
      rw [Function.update_self] at this
      cases this
  · cases why <;> exact Function.update_self ..
  · cases why with
    | botGone => exact (Function.update_self ..).trans (Bool.and_false _).symm
    | _ => exact (Bool.and_true _).symm
  · cases why with
    | restart => rfl
    | _ => exact Function.update_self ..

theorem cancel_token (s : System X) (token : Nat) : (s.cancel (some token)).tokens.cancelled token = true :=
  Bool.or_eq_true_iff.mpr (.inr (decide_eq_true rfl))

theorem sound_stop (h : Sound s) (name : Str) (why : Stop) : Sound (s.stop name why) := by
  obtain ⟨cancelled, started, parked, -⟩ := stop_self s name why
  refine h.of_frame (frame_stop s name why) ?_ (fun _ => ⟨started, cancelled⟩) fun token ht => .inl ?_
  · cases why with
    | botGone => exact gates_setParked h.gates name false
    | _ => exact h.gates
  · have : (s.stop name why).tokens.cancelled token = (s.cancel (s.stops name)).tokens.cancelled token := by
      cases why <;> rfl
    rw [this, ht]
    exact cancel_token s token

theorem frame_unpark (s : System X) (name : Str) : Frame name s (s.unpark name) :=
  ⟨rfl, rfl, fun _ ne => Function.update_of_ne ne _ _, fun _ _ => rfl, fun _ _ => rfl, fun _ h => h⟩

theorem unpark_self (s : System X) (name : Str) : (s.unpark name).parked name = false := Function.update_self ..

theorem sound_unpark (h : Sound s) (name : Str) : Sound (s.unpark name) := by
  refine h.of_frame (frame_unpark s name) (gates_setParked h.gates name false) (fun parked => ?_) fun _ => .inr
  rw [unpark_self] at parked
  cases parked

/-- A bot parked in the sources and in the gateway. -/
def parkBoth (s : System X) (name : Str) : System X := (s.park name).setParked name true

theorem frame_parkBoth (s : System X) (name : Str) : Frame name s (s.parkBoth name) :=
  ⟨rfl, rfl, fun _ ne => Function.update_of_ne ne _ _, fun _ ne => Function.update_of_ne ne _ _, fun _ _ => rfl,
    fun _ h => Bool.or_eq_true_iff.mpr (.inl h)⟩

theorem parkBoth_self (s : System X) (name : Str) :
    (s.parkBoth name).parked name = true ∧ (s.parkBoth name).started name = none ∧ (s.parkBoth name).Cancelled name ∧
      (s.parkBoth name).stops name = s.stops name := by
  refine ⟨Function.update_self .., Function.update_self .., fun token ht => ?_, rfl⟩
  have ht : s.stops name = some token := ht
  change (s.cancel (s.stops name)).tokens.cancelled token = true
  rw [ht]
  exact cancel_token s token

theorem sound_parkBoth (h : Sound s) (name : Str) : Sound (s.parkBoth name) := by
  obtain ⟨-, started, cancelled, stops⟩ := parkBoth_self s name
  refine h.of_frame (frame_parkBoth s name) ?_ (fun _ => ⟨started, cancelled⟩) fun token ht => .inr (stops.trans ht)
  intro entry he
  obtain ⟨before, hb, rfl⟩ := List.mem_map.mp he
  by_cases same : before.bot.name = name
  · rw [if_pos same]
    change true = Function.update s.parked name true before.bot.name
    rw [same, Function.update_self]
  · rw [if_neg same]
    change before.gate.parked = Function.update s.parked name true before.bot.name
    rw [Function.update_of_ne same]
    exact h.gates before hb

/-! ### Starting -/

theorem frame_prepare (s : System X) (bot : Bot X) (ready : Bool) : Frame bot.name s (s.prepare bot ready) := by
  refine ⟨rfl, rfl, fun _ _ => rfl, fun other ne => ?_, fun _ ne => Function.update_of_ne ne _ _, fun _ h => h⟩
  cases ready with
  | true => rfl
  | false => exact Function.update_of_ne ne _ _

/-- A bot that is not parked, and that nothing answers for yet, may be prepared. -/
theorem sound_prepare (h : Sound s) {bot : Bot X} (unparked : s.parked bot.name = false) (cancelled : s.Cancelled bot.name)
    (ready : Bool) : Sound (s.prepare bot ready) := by
  refine h.of_frame (frame_prepare s bot ready) h.gates (fun parked => ?_) fun token ht => .inl (cancelled token ht)
  rw [show (s.prepare bot ready).parked bot.name = s.parked bot.name from rfl, unparked] at parked
  cases parked

theorem sound_start (h : Sound s) {bot : Bot X} (unparked : s.parked bot.name = false) : Sound (s.start bot) := by
  have frame : Frame bot.name s (s.start bot) :=
    ⟨rfl, rfl, fun _ _ => rfl, fun _ ne => Function.update_of_ne ne _ _, fun _ _ => rfl, fun _ h => h⟩
  refine h.of_frame frame h.gates (fun parked => ?_) fun _ => .inr
  rw [show (s.start bot).parked bot.name = s.parked bot.name from rfl, unparked] at parked
  cases parked

/-- The bots `bots` may be prepared. -/
def Startable (s : System X) (bots : List (Bot X)) : Prop :=
  (bots.map (·.name)).Nodup ∧ ∀ bot ∈ bots, s.parked bot.name = false ∧ s.Cancelled bot.name

/-- What starting the sources of `bots` leaves alone. -/
structure Started (bots : List (Bot X)) (s s' : System X) : Prop where
  cfg : s'.cfg = s.cfg
  parked : s'.parked = s.parked
  stops : ∀ name, name ∉ bots.map (·.name) → s'.stops name = s.stops name
  prepared : ∀ bot ∈ bots, (s'.stops bot.name).isSome

theorem prepareAll (h : Sound s) {bots : List (Bot X)} (startable : s.Startable bots) (ready : Str → Bool) :
    Sound (bots.foldl (fun s bot => s.prepare bot (ready bot.name)) s) ∧
      Started bots s (bots.foldl (fun s bot => s.prepare bot (ready bot.name)) s) := by
  induction bots generalizing s with
  | nil => exact ⟨h, rfl, rfl, fun _ _ => rfl, nofun⟩
  | cons bot bots ih =>
    obtain ⟨nodup, free⟩ := startable
    rw [List.map_cons, List.nodup_cons] at nodup
    obtain ⟨unparked, cancelled⟩ := free bot List.mem_cons_self
    have frame := frame_prepare s bot (ready bot.name)
    have startable : (s.prepare bot (ready bot.name)).Startable bots := by
      refine ⟨nodup.2, fun other ho => ?_⟩
      obtain ⟨unparked, cancelled⟩ := free other (List.mem_cons_of_mem _ ho)
      have ne : other.name ≠ bot.name := fun same => nodup.1 (same ▸ List.mem_map_of_mem ho)
      exact ⟨unparked, fun token ht => cancelled token (frame.stops _ ne ▸ ht)⟩
    obtain ⟨sound, started⟩ := ih (sound_prepare h unparked cancelled (ready bot.name)) startable
    refine ⟨sound, started.cfg, started.parked, fun name new => ?_, fun other ho => ?_⟩
    · rw [List.map_cons, List.mem_cons, not_or] at new
      exact (started.stops name new.2).trans (frame.stops name new.1)
    · rcases List.mem_cons.mp ho with rfl | ho
      · rw [List.foldl_cons, started.stops _ nodup.1]
        exact Option.isSome_of_eq_some (Function.update_self ..)
      · exact started.prepared other ho

theorem startAll (h : Sound s) {bots : List (Bot X)} (unparked : ∀ bot ∈ bots, s.parked bot.name = false) :
    Sound (bots.foldl start s) ∧ (bots.foldl start s).cfg = s.cfg ∧ (bots.foldl start s).parked = s.parked ∧
      (bots.foldl start s).stops = s.stops := by
  induction bots generalizing s with
  | nil => exact ⟨h, rfl, rfl, rfl⟩
  | cons bot bots ih =>
    exact ih (sound_start h (unparked bot List.mem_cons_self)) fun other ho => unparked other (List.mem_cons_of_mem _ ho)

/-- Every bot of the list with ingress is parked or has a stop token. -/
def Answers (s : System X) (bots : List (Bot X)) : Prop :=
  ∀ bot ∈ bots, bot.ingress.isSome → s.parked bot.name = true ∨ (s.stops bot.name).isSome

/-- The routes of bots that are parked or have a stop token answer by a cancelled token or by that one. -/
theorem routesOf_spec {bots : List (Bot X)} (answers : s.Answers bots) :
    (∃ tokens, (s.routesOf bots).2 = { s with tokens } ∧
      ∀ token, s.tokens.cancelled token = true → tokens.cancelled token = true) ∧
    ∀ route ∈ (s.routesOf bots).1,
      (s.routesOf bots).2.tokens.cancelled route.2 = true ∨ s.stops route.1 = some route.2 := by
  induction bots generalizing s with
  | nil => exact ⟨⟨s.tokens, rfl, fun _ h => h⟩, nofun⟩
  | cons bot bots ih =>
    have rest : s.Answers bots := fun other ho => answers other (List.mem_cons_of_mem _ ho)
    have skipped := ih rest
    cases ingress : bot.ingress with
    | none =>
      simp only [routesOf, ingress]
      exact skipped
    | some way =>
      cases way with
      | longPoll settings =>
        simp only [routesOf, ingress]
        exact skipped
      | webhook settings =>
        simp only [routesOf, ingress, ingestOf]
        by_cases parked : s.parked bot.name = true
        · rw [if_pos parked]
          set s₁ := ({ s with tokens := { s.tokens with next := s.tokens.next + 1 } } : System X).cancel
            (some s.tokens.next) with hs₁
          have mono : ∀ token, s.tokens.cancelled token = true → s₁.tokens.cancelled token = true := fun _ h =>
            Bool.or_eq_true_iff.mpr (.inl h)
          obtain ⟨⟨tokens, eq, grown⟩, routes⟩ := ih (s := s₁) rest
          refine ⟨⟨tokens, eq, fun token h => grown token (mono token h)⟩, fun route mem => ?_⟩
          rcases List.mem_cons.mp mem with rfl | mem
          · left
            rw [eq]
            exact grown _ (cancel_token _ _)
          · exact routes route mem
        · rw [if_neg parked]
          obtain ⟨⟨tokens, eq, grown⟩, routes⟩ := skipped
          refine ⟨⟨tokens, eq, grown⟩, fun route mem => ?_⟩
          rcases List.mem_cons.mp mem with rfl | mem
          · rcases answers bot List.mem_cons_self (by rw [ingress]; rfl) with still | stops
            · exact absurd still parked
            · obtain ⟨token, ht⟩ := Option.isSome_iff_exists.mp stops
              right
              simp [ht]
          · exact routes route mem

theorem sound_rebuild (h : Sound s) (cfg : Config X) (answers : s.Answers cfg.bots) :
    Sound (s.rebuild cfg) ∧ (s.rebuild cfg).cfg = s.cfg ∧ (s.rebuild cfg).parked = s.parked ∧
      (s.rebuild cfg).stops = s.stops := by
  obtain ⟨⟨tokens, eq, grown⟩, routes⟩ := routesOf_spec answers
  unfold rebuild
  split
  · generalize s.routesOf cfg.bots = r at eq routes
    obtain ⟨served, s'⟩ := r
    dsimp only at eq
    subst eq
    refine ⟨⟨h.gates, fun name parked => ?_, fun _ hr route mem => ?_⟩, rfl, rfl, rfl⟩
    · obtain ⟨started, cancelled⟩ := h.stopped name parked
      exact ⟨started, fun token ht => grown token (cancelled token ht)⟩
    · obtain rfl := Option.some.inj hr
      exact routes route mem
  · exact ⟨h, rfl, rfl, rfl⟩

/-- Starting sources keeps all sound, if every other bot of the config is parked or has a stop token. -/
theorem startSources_spec (h : Sound s) {bots : List (Bot X)} (startable : s.Startable bots) (cfg : Config X)
    (answers : ∀ bot ∈ cfg.bots, bot.ingress.isSome →
      s.parked bot.name = true ∨ (s.stops bot.name).isSome ∨ bot ∈ bots) (ready : Str → Bool) :
    Sound (s.startSources cfg ready bots) ∧ Started bots s (s.startSources cfg ready bots) ∧
      (s.startSources cfg ready bots).Answers cfg.bots := by
  obtain ⟨sound, prepared⟩ := prepareAll h startable ready
  set s₁ := bots.foldl (fun s bot => s.prepare bot (ready bot.name)) s with hs₁
  have answers₁ : s₁.Answers cfg.bots := by
    intro bot hb ingress
    by_cases among : bot.name ∈ bots.map (·.name)
    · obtain ⟨other, ho, same⟩ := List.mem_map.mp among
      exact .inr (same ▸ prepared.prepared other ho)
    · rcases answers bot hb ingress with parked | stops | mem
      · exact .inl (prepared.parked ▸ parked)
      · exact .inr (prepared.stops bot.name among ▸ stops)
      · exact absurd (List.mem_map_of_mem mem) among
  obtain ⟨sound, cfg₂, parked₂, stops₂⟩ := sound_rebuild sound cfg answers₁
  have unparked : ∀ bot ∈ bots.filter fun bot => ready bot.name, (s₁.rebuild cfg).parked bot.name = false := by
    intro bot hb
    rw [parked₂, prepared.parked]
    exact (startable.2 bot (List.mem_filter.mp hb).1).1
  obtain ⟨sound, cfg₃, parked₃, stops₃⟩ := startAll sound unparked
  have parked : (s.startSources cfg ready bots).parked = s₁.parked := parked₃.trans parked₂
  have stops : (s.startSources cfg ready bots).stops = s₁.stops := stops₃.trans stops₂
  refine ⟨sound, ⟨cfg₃.trans (cfg₂.trans prepared.cfg), parked.trans prepared.parked, fun name new => ?_, fun bot hb => ?_⟩,
    fun bot hb ingress => ?_⟩
  · rw [stops, prepared.stops name new]
  · rw [stops]
    exact prepared.prepared bot hb
  · rw [parked, stops]
    exact answers₁ bot hb ingress

/-! ### Restarting -/

/-- What stopping the restarted bots `names` leaves, with the bots to start again. -/
structure Restarted (cfg : Config X) (report : ReloadReport) (names : List Str) (s : System X) (bots : List (Bot X))
    (s' : System X) : Prop where
  sound : Sound s'
  running : s'.cfg = s.cfg
  parked : ∀ name, s'.parked name = (s.parked name && !decide (name ∈ names ∧ name ∈ report.upstreamChanged))
  others : ∀ name, name ∉ names → s'.stops name = s.stops name
  cancelled : ∀ token, s.tokens.cancelled token = true → s'.tokens.cancelled token = true
  starting : ∀ bot ∈ bots, bot.name ∈ names
  startable : s'.Startable bots
  among : ∀ name ∈ names, ∀ bot, cfg.bot name = some bot → bot.ingress.isSome → s'.parked name = true ∨ bot ∈ bots

theorem bot_name {cfg : Config X} {bot : Bot X} (h : cfg.bot name = some bot) : bot ∈ cfg.bots ∧ bot.name = name := by
  refine ⟨List.mem_of_find?_eq_some h, ?_⟩
  simpa using List.find?_some h

/-- A restarted bot that is parked, stays on its server and keeps ingress is left alone. -/
theorem restarted_skip {cfg : Config X} {report : ReloadReport} {names : List Str} {bots : List (Bot X)}
    (h : Restarted cfg report names s bots s') (new : name ∉ names) (unmoved : name ∉ report.upstreamChanged)
    (parked : s.parked name = true) : Restarted cfg report (name :: names) s bots s' := by
  have still : s'.parked name = true := by
    rw [h.parked, parked]
    simp [new]
  refine ⟨h.sound, h.running, fun other => ?_, fun other ho => ?_, h.cancelled, fun bot hb => ?_, h.startable, ?_⟩
  · rw [h.parked]
    by_cases same : other = name
    · subst same
      simp [new, unmoved]
    · simp [same]
  · rw [List.mem_cons, not_or] at ho
    exact h.others other ho.2
  · exact List.mem_cons_of_mem _ (h.starting bot hb)
  · intro other ho bot hb ingress
    rcases List.mem_cons.mp ho with rfl | ho
    · exact .inl still
    · exact h.among other ho bot hb ingress

/-- A restarted bot whose source is stopped, its parking ended first if its server changed. -/
theorem restarted_stop {cfg : Config X} {report : ReloadReport} {names : List Str} {bots : List (Bot X)} {s₁ : System X}
    (frame : Frame name s s₁) (h : Restarted cfg report names s₁ bots s') (new : name ∉ names)
    (parked : s₁.parked name = (s.parked name && !decide (name ∈ report.upstreamChanged)))
    {bot : Bot X} (hbot : cfg.bot name = some bot)
    (self : bot.ingress.isSome → s₁.parked name = false ∧ s₁.Cancelled name) :
    Restarted cfg report (name :: names) s (if bot.ingress.isSome then bot :: bots else bots) s' := by
  obtain ⟨-, rfl⟩ := bot_name hbot
  have left : s'.parked bot.name = s₁.parked bot.name := by
    rw [h.parked]
    simp [new]
  refine ⟨h.sound, h.running.trans frame.cfg, fun other => ?_, fun other ho => ?_,
    fun token ht => h.cancelled token (frame.cancelled token ht), fun other ho => ?_, ?_, ?_⟩
  · rw [h.parked]
    by_cases same : other = bot.name
    · subst same
      rw [parked]
      simp [new]
    · rw [frame.parked other same]
      simp [same]
  · rw [List.mem_cons, not_or] at ho
    exact (h.others other ho.2).trans (frame.stops other ho.1)
  · split at ho
    · rcases List.mem_cons.mp ho with rfl | ho
      · exact List.mem_cons_self
      · exact List.mem_cons_of_mem _ (h.starting other ho)
    · exact List.mem_cons_of_mem _ (h.starting other ho)
  · split
    next ingress =>
      obtain ⟨unparked, cancelled⟩ := self ingress
      have fresh : bot.name ∉ bots.map (·.name) := by
        intro mem
        obtain ⟨other, ho, same⟩ := List.mem_map.mp mem
        exact new (same ▸ h.starting other ho)
      refine ⟨List.nodup_cons.mpr ⟨fresh, h.startable.1⟩, fun other ho => ?_⟩
      rcases List.mem_cons.mp ho with rfl | ho
      · refine ⟨left.trans unparked, fun token ht => h.cancelled token (cancelled token ?_)⟩
        rwa [h.others _ new] at ht
      · exact h.startable.2 other ho
    next => exact h.startable
  · intro other ho found hf ingress
    rcases List.mem_cons.mp ho with rfl | ho
    · obtain rfl := Option.some.inj (hbot.symm.trans hf)
      rw [if_pos ingress]
      exact .inr List.mem_cons_self
    · rcases h.among other ho found hf ingress with still | mem
      · exact .inl still
      · right
        split
        · exact List.mem_cons_of_mem _ mem
        · exact mem

theorem restartEach_spec (h : Sound s) (cfg : Config X) (report : ReloadReport) {names : List Str} (nodup : names.Nodup)
    (configured : ∀ name ∈ names, (cfg.bot name).isSome) :
    Restarted cfg report names s (restartEach cfg report names s).1 (restartEach cfg report names s).2 := by
  induction names generalizing s with
  | nil =>
    refine ⟨h, rfl, fun name => ?_, fun _ _ => rfl, fun _ h => h, nofun, ⟨.nil, nofun⟩, nofun⟩
    simp [restartEach]
  | cons name names ih =>
    obtain ⟨new, nodup⟩ := List.nodup_cons.mp nodup
    have rest : ∀ name ∈ names, (cfg.bot name).isSome := fun other ho => configured other (List.mem_cons_of_mem _ ho)
    obtain ⟨bot, hbot⟩ := Option.isSome_iff_exists.mp (configured name List.mem_cons_self)
    obtain ⟨why, hw⟩ : ∃ why, why = if bot.ingress.isNone then Stop.sourceGone else .restart := ⟨_, rfl⟩
    have stays : why ≠ .botGone := by
      rw [hw]
      split <;> nofun
    have restart : why = .restart ↔ bot.ingress.isSome := by
      rw [hw]
      cases bot.ingress <;> simp
    simp only [restartEach, hbot, ← hw]
    split
    next skip =>
      simp only [Bool.and_eq_true, Bool.not_eq_true', decide_eq_false_iff_not] at skip
      exact restarted_skip (ih h nodup rest) new skip.1.1 skip.2
    next enter =>
      -- Its parking ends if its server changed, and only then.
      obtain ⟨s₁, hs₁⟩ : ∃ s₁, s₁ = if decide (name ∈ report.upstreamChanged) then s.unpark name else s := ⟨_, rfl⟩
      have ended : Sound s₁ ∧ Frame name s s₁ ∧ s₁.parked name = (s.parked name && !decide (name ∈ report.upstreamChanged)) := by
        by_cases moved : name ∈ report.upstreamChanged
        · rw [decide_eq_true moved, if_pos rfl] at hs₁
          subst hs₁
          refine ⟨sound_unpark h name, frame_unpark s name, ?_⟩
          simp [unpark_self, moved]
        · rw [decide_eq_false moved, if_neg Bool.false_ne_true] at hs₁
          subst hs₁
          exact ⟨h, .refl name s₁, by simp [moved]⟩
      obtain ⟨sound, frame, parked⟩ := ended
      obtain ⟨cancelled, -, kept, -⟩ := stop_self s₁ name why
      rw [decide_eq_true stays, Bool.and_true] at kept
      have stopped := restarted_stop (frame.trans (frame_stop s₁ name why)) (ih (sound_stop sound name why) nodup rest)
        new (kept.trans parked) hbot fun ingress => ⟨?_, cancelled⟩
      · rw [← hs₁]
        simpa only [restart, Option.toList_some, List.singleton_append] using stopped
      · rw [kept, parked]
        rw [restart.mpr ingress] at enter
        simp only [isParked] at enter
        grind

end System
end Tgin.Parking
