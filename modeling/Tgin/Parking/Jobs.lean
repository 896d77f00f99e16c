import Mathlib.Data.List.Induction
import Tgin.Parking.Steps

/-! A reload and a move as jobs: what each does to the parked bots, and what every run of jobs keeps. -/

namespace Tgin.Parking
open Rules
open Gateway (Gate)

variable {X : Type} {name : Str}

theorem bot_some {cfg : Config X} {bot : Bot X} (h : bot ∈ cfg.bots) : cfg.bot bot.name = some bot := by
  have found : (cfg.bot bot.name).isSome := List.find?_isSome.mpr ⟨bot, h, decide_eq_true rfl⟩
  obtain ⟨other, ho⟩ := Option.isSome_iff_exists.mp found
  obtain ⟨mem, same⟩ := System.bot_name ho
  rw [ho, List.inj_on_of_nodup_map cfg.names mem h same]

section Report

variable {old new : Config X}

theorem mem_kept {changed : Bot X → Bot X → Bool} :
    name ∈ (old.bots.filter fun bot => (new.bot bot.name).any (changed bot)).map (·.name) ↔
      ∃ before after, old.bot name = some before ∧ new.bot name = some after ∧ changed before after = true := by
  constructor
  · intro h
    obtain ⟨before, hb, rfl⟩ := List.mem_map.mp h
    obtain ⟨mem, any⟩ := List.mem_filter.mp hb
    rcases found : new.bot before.name with _ | after
    · rw [found] at any
      cases any
    · rw [found] at any
      exact ⟨before, after, bot_some mem, rfl, any⟩
  · rintro ⟨before, after, hb, found, changed⟩
    obtain ⟨mem, rfl⟩ := System.bot_name hb
    refine List.mem_map_of_mem (List.mem_filter.mpr ⟨mem, ?_⟩)
    rw [found]
    exact changed

variable [DecidableEq X]

theorem mem_removed : name ∈ (report old new).sourcesRemoved ↔ (old.bot name).isSome ∧ new.bot name = none := by
  constructor
  · intro h
    obtain ⟨bot, hb, rfl⟩ := List.mem_map.mp h
    obtain ⟨mem, gone⟩ := List.mem_filter.mp hb
    exact ⟨by rw [bot_some mem]; rfl, Option.isNone_iff_eq_none.mp gone⟩
  · rintro ⟨found, gone⟩
    obtain ⟨bot, hb⟩ := Option.isSome_iff_exists.mp found
    obtain ⟨mem, rfl⟩ := System.bot_name hb
    exact List.mem_map_of_mem (List.mem_filter.mpr ⟨mem, Option.isNone_iff_eq_none.mpr gone⟩)

theorem mem_restarted : name ∈ (report old new).sourcesRestarted ↔
    ∃ before after, old.bot name = some before ∧ new.bot name = some after ∧ restarts before after = true := mem_kept

/-- Whether a reload moves a bot to another Bot API server. -/
theorem mem_upstreamChanged : name ∈ (report old new).upstreamChanged ↔
    ∃ before after, old.bot name = some before ∧ new.bot name = some after ∧
      (!after.upstream.sameServer before.upstream) = true := mem_kept

theorem mem_restarted_of_moved (h : name ∈ (report old new).upstreamChanged) :
    name ∈ (report old new).sourcesRestarted := by
  obtain ⟨before, after, hb, ha, moved⟩ := mem_upstreamChanged.mp h
  exact mem_restarted.mpr ⟨before, after, hb, ha, by simp only [restarts, moved, Bool.true_or]⟩

/-- The bots a reload adds. -/
theorem added_eq : (report old new).sourcesAdded.filterMap new.bot = new.bots.filter fun bot => (old.bot bot.name).isNone := by
  have all : ∀ bots : List (Bot X), bots ⊆ new.bots → (bots.map (·.name)).filterMap new.bot = bots := by
    intro bots sub
    rw [List.filterMap_map]
    refine (List.filterMap_congr fun bot hb => ?_).trans List.filterMap_some
    exact bot_some (sub hb)
  exact all _ (fun _ h => (List.mem_filter.mp h).1)

end Report

namespace System

variable {s : System X}

/-- What holds between two jobs. -/
structure Steady (s : System X) : Prop where
  sound : Sound s
  configured : ∀ name, s.parked name = true ∨ (s.stops name).isSome → (s.cfg.bot name).isSome
  answers : s.Answers s.cfg.bots

/-- Every configured bot has a gateway entry. -/
def Served (s : System X) : Prop := ∀ bot ∈ s.cfg.bots, (s.named bot.name).isSome

instance : Decidable s.Served := inferInstanceAs (Decidable (∀ bot ∈ s.cfg.bots, (s.named bot.name).isSome))

/-- Stopping the sources of bots that are gone ends their parking and takes their stop tokens. -/
theorem removeEach (h : Sound s) (names : List Str) :
    Sound (names.foldl (fun s name => s.stop name .botGone) s) ∧
      (names.foldl (fun s name => s.stop name .botGone) s).cfg = s.cfg ∧
      ∀ name, (names.foldl (fun s name => s.stop name .botGone) s).parked name = (s.parked name && name ∉ names) ∧
        (names.foldl (fun s name => s.stop name .botGone) s).stops name =
          if name ∈ names then none else s.stops name := by
  induction names generalizing s with
  | nil => exact ⟨h, rfl, fun name => by simp⟩
  | cons gone names ih =>
    obtain ⟨sound, cfg, each⟩ := ih (sound_stop h gone .botGone)
    have frame := frame_stop s gone .botGone
    obtain ⟨-, -, parked, stops⟩ := stop_self s gone .botGone
    refine ⟨sound, cfg.trans frame.cfg, fun name => ?_⟩
    rw [List.foldl_cons, (each name).1, (each name).2]
    by_cases same : name = gone
    · subst same
      rw [parked, stops]
      simp
    · rw [frame.parked name same, frame.stops name same]
      simp [same]

/-- A bot with an entry has its gate parked exactly when it is parked. -/
theorem gate_parked (h : Sound s) {entry : Entry X} (named : s.named name = some entry) :
    entry.gate.parked = s.isParked name := by
  have same : entry.bot.name = name := by simpa using List.find?_some named
  rw [h.gates entry (List.mem_of_find?_eq_some named), same]
  rfl

/-- A parked bot's webhook route answers by a cancelled token: as it is built, and once it is served. -/
theorem route_cancelled (h : Sound s) (parked : s.isParked name = true) :
    (s.ingestOf name).2.tokens.cancelled (s.ingestOf name).1 = true ∧
      ∀ routes, s.routes = some routes → ∀ token, (name, token) ∈ routes → s.tokens.cancelled token = true := by
  refine ⟨?_, fun routes hr token mem => ?_⟩
  · rw [ingestOf, if_pos (show s.parked name = true from parked)]
    exact cancel_token _ _
  · rcases h.routes routes hr _ mem with cancelled | stops
    · exact cancelled
    · exact (h.stopped name parked).2 token stops

variable [DecidableEq X]

/-- A rebuilt table keeps the gates of the bots it serves on; a new bot, whose gate is open, was not parked. -/
theorem sound_setBots (h : Steady s) (served : Served s) (serves : Bot X → Bool) (cfg : Config X) :
    Sound ({ s with cfg }.setBots serves cfg.bots) := by
  refine ⟨fun entry he => ?_, h.sound.stopped, h.sound.routes⟩
  obtain ⟨bot, -, built⟩ := List.mem_filterMap.mp he
  change entry.gate.parked = s.parked entry.bot.name
  rcases hn : s.named bot.name with _ | previous
  · rw [show ({ s with cfg } : System X).named bot.name = none from hn] at built
    have unparked : s.parked bot.name = false := by
      rw [Bool.eq_false_iff]
      intro parked
      obtain ⟨old, ho⟩ := Option.isSome_iff_exists.mp (h.configured _ (.inl parked))
      obtain ⟨mem, same⟩ := bot_name ho
      have := served old mem
      rw [same, hn] at this
      cases this
    dsimp only at built
    split at built
    · obtain rfl := Option.some.inj built
      exact unparked.symm
    · cases built
  · rw [show ({ s with cfg } : System X).named bot.name = some previous from hn] at built
    have mem := List.mem_of_find?_eq_some hn
    have same : previous.bot.name = bot.name := by simpa using List.find?_some hn
    have gate := h.sound.gates previous mem
    dsimp only at built
    split at built
    · obtain rfl := Option.some.inj built
      exact gate
    · split at built
      · obtain rfl := Option.some.inj built
        exact gate.trans (congrArg s.parked same)
      · cases built

/-- The bots a reload starts are not parked, and nothing answers for them: those it restarts, and the new ones. -/
theorem startable_reload {old cfg : Config X} {names : List Str} {starting : List (Bot X)} {s₂ s₃ : System X}
    (restarted : Restarted cfg (report old cfg) names s₂ starting s₃) (sub : ∀ name ∈ names, (old.bot name).isSome)
    (fresh : ∀ name, old.bot name = none → s₂.parked name = false ∧ s₂.stops name = none) :
    s₃.Startable (starting ++
      ((report old cfg).sourcesAdded.filterMap cfg.bot).filter fun bot => bot.ingress.isSome) := by
  rw [added_eq, List.filter_filter]
  have added : ∀ bot ∈ cfg.bots.filter fun bot => bot.ingress.isSome && (old.bot bot.name).isNone,
      bot ∈ cfg.bots ∧ old.bot bot.name = none := by
    intro bot hb
    obtain ⟨mem, new⟩ := List.mem_filter.mp hb
    rw [Bool.and_eq_true] at new
    exact ⟨mem, Option.isNone_iff_eq_none.mp new.2⟩
  have apart : ∀ name, old.bot name = none → name ∉ names := by
    intro name gone mem
    have := sub name mem
    rw [gone] at this
    cases this
  refine ⟨?_, fun bot hb => ?_⟩
  · rw [List.map_append, List.nodup_append']
    refine ⟨restarted.startable.1, cfg.names.sublist (List.filter_sublist.map _), fun name hs ha => ?_⟩
    obtain ⟨bot, hb, rfl⟩ := List.mem_map.mp hs
    obtain ⟨other, ho, same⟩ := List.mem_map.mp ha
    exact apart _ (same ▸ (added other ho).2) (restarted.starting bot hb)
  · rcases List.mem_append.mp hb with hb | hb
    · exact restarted.startable.2 bot hb
    · obtain ⟨-, gone⟩ := added bot hb
      obtain ⟨unparked, stops⟩ := fresh _ gone
      refine ⟨?_, fun token ht => ?_⟩
      · rw [restarted.parked, unparked, Bool.false_and]
      · rw [restarted.others _ (apart _ gone), stops] at ht
        cases ht

/-- After the sources of the removed and the restarted bots are stopped, every bot of the new config with ingress is parked,
    has a stop token, or starts. -/
theorem answers_reload (h : Steady s) {cfg : Config X} {starting : List (Bot X)} {s₂ s₃ : System X}
    (restarted : Restarted cfg (report s.cfg cfg) (report s.cfg cfg).sourcesRestarted s₂ starting s₃)
    (kept : ∀ name, (cfg.bot name).isSome → s₂.parked name = s.parked name ∧ s₂.stops name = s.stops name) :
    ∀ bot ∈ cfg.bots, bot.ingress.isSome → s₃.parked bot.name = true ∨ (s₃.stops bot.name).isSome ∨
      bot ∈ starting ++ ((report s.cfg cfg).sourcesAdded.filterMap cfg.bot).filter fun bot => bot.ingress.isSome := by
  intro bot hb ingress
  have found := bot_some hb
  rw [added_eq]
  rcases ho : s.cfg.bot bot.name with _ | old
  · refine .inr (.inr (List.mem_append_right _ (List.mem_filter.mpr ⟨List.mem_filter.mpr ⟨hb, ?_⟩, ingress⟩)))
    rw [ho]
    rfl
  · by_cases restart : bot.name ∈ (report s.cfg cfg).sourcesRestarted
    · rcases restarted.among _ restart bot found ingress with parked | mem
      · exact .inl parked
      · exact .inr (.inr (List.mem_append_left _ mem))
    · -- It is as it was, ingress and all.
      have same : bot.ingress = old.ingress := by
        by_contra ne
        exact restart (mem_restarted.mpr ⟨old, bot, ho, found, by simp [restarts, ne]⟩)
      obtain ⟨mem, name⟩ := bot_name ho
      obtain ⟨parked, stops⟩ := kept bot.name (by rw [found]; rfl)
      rw [restarted.others _ restart, stops, restarted.parked, parked]
      rcases h.answers old mem (same ▸ ingress) with parked | stops
      · left
        rw [← name, parked]
        simp [name, restart]
      · exact .inr (.inl (name ▸ stops))

/-- A reload ends the parking of the bots it removes and of those it moves to another server, and of no others. -/
theorem reload_spec (h : Steady s) (served : Served s) (serves : Bot X → Bool) (cfg : Config X) (ready : Str → Bool) :
    Steady (s.reload serves cfg ready) ∧ (s.reload serves cfg ready).cfg = cfg ∧
      ∀ name, (s.reload serves cfg ready).parked name =
        (s.parked name && (cfg.bot name).isSome && name ∉ (report s.cfg cfg).upstreamChanged) := by
  obtain ⟨s₁, hs₁⟩ : ∃ s₁, s₁ = ({ s with cfg } : System X).setBots serves cfg.bots := ⟨_, rfl⟩
  have sound₁ : Sound s₁ := hs₁ ▸ sound_setBots h served serves cfg
  have parked₁ : s₁.parked = s.parked := hs₁ ▸ rfl
  have stops₁ : s₁.stops = s.stops := hs₁ ▸ rfl
  have cfg₁ : s₁.cfg = cfg := hs₁ ▸ rfl
  obtain ⟨sound₂, cfg₂, each⟩ := removeEach sound₁ (report s.cfg cfg).sourcesRemoved
  obtain ⟨s₂, hs₂⟩ : ∃ s₂, s₂ = (report s.cfg cfg).sourcesRemoved.foldl (fun s name => s.stop name .botGone) s₁ := ⟨_, rfl⟩
  rw [← hs₂] at sound₂ cfg₂ each
  simp only [parked₁, stops₁] at each
  have configured : ∀ name ∈ (report s.cfg cfg).sourcesRestarted, (s.cfg.bot name).isSome ∧ (cfg.bot name).isSome := by
    intro name mem
    obtain ⟨_, _, hb, ha, -⟩ := mem_restarted.mp mem
    exact ⟨Option.isSome_of_eq_some hb, Option.isSome_of_eq_some ha⟩
  have kept : ∀ name, (cfg.bot name).isSome → s₂.parked name = s.parked name ∧ s₂.stops name = s.stops name := by
    intro name found
    have stays : name ∉ (report s.cfg cfg).sourcesRemoved := by
      intro removed
      rw [(mem_removed.mp removed).2] at found
      cases found
    rw [(each name).1, (each name).2, if_neg stays]
    simp [stays]
  have gone : ∀ name, (s₂.parked name = true ∨ (s₂.stops name).isSome) → (cfg.bot name).isSome := by
    intro name held
    rw [(each name).1, (each name).2] at held
    have removed : name ∉ (report s.cfg cfg).sourcesRemoved := by
      intro removed
      simp [removed] at held
    simp only [removed, not_false_eq_true, decide_true, Bool.and_true, if_false] at held
    have before := h.configured name held
    rw [Option.isSome_iff_ne_none]
    exact fun none => removed (mem_removed.mpr ⟨before, none⟩)
  obtain ⟨starting, s₃, restarted, eq⟩ : ∃ starting s₃,
      Restarted cfg (report s.cfg cfg) (report s.cfg cfg).sourcesRestarted s₂ starting s₃ ∧
      s.reload serves cfg ready = s₃.startSources cfg ready (starting ++
        ((report s.cfg cfg).sourcesAdded.filterMap cfg.bot).filter fun bot => bot.ingress.isSome) := by
    refine ⟨_, _, restartEach_spec sound₂ cfg _ (s.cfg.names.sublist (List.filter_sublist.map _))
      fun name mem => (configured name mem).2, ?_⟩
    rw [hs₂, hs₁]
    rfl
  have fresh : ∀ name, s.cfg.bot name = none → s₂.parked name = false ∧ s₂.stops name = none := by
    intro name none
    have before : ¬(s.parked name = true ∨ (s.stops name).isSome) := by
      intro held
      have := h.configured name held
      rw [none] at this
      cases this
    rw [not_or, Bool.not_eq_true, Bool.not_eq_true, Option.isSome_eq_false_iff, Option.isNone_iff_eq_none] at before
    rw [(each name).1, (each name).2, before.1, before.2]
    simp
  have startable := startable_reload restarted (fun name mem => (configured name mem).1) fresh
  obtain ⟨sound, started, answers⟩ :=
    startSources_spec restarted.sound startable cfg (answers_reload h restarted kept) ready
  rw [← eq] at sound started answers
  have running := started.cfg.trans (restarted.running.trans (cfg₂.trans cfg₁))
  have parked : ∀ name, (s.reload serves cfg ready).parked name =
      (s₂.parked name && name ∉ (report s.cfg cfg).upstreamChanged) := by
    intro name
    rw [started.parked, restarted.parked]
    by_cases moved : name ∈ (report s.cfg cfg).upstreamChanged
    · simp [moved, mem_restarted_of_moved moved]
    · simp [moved]
  refine ⟨⟨sound, fun name held => ?_, by rw [running]; exact answers⟩, running, fun name => ?_⟩
  · rw [running]
    rcases held with still | held
    · rw [parked, Bool.and_eq_true] at still
      exact gone name (.inl still.1)
    · by_cases restart : name ∈ (report s.cfg cfg).sourcesRestarted
      · exact (configured name restart).2
      · by_contra missing
        -- No bot of the new config has the name, so none of them starts under it.
        have new : name ∉ (starting ++ ((report s.cfg cfg).sourcesAdded.filterMap cfg.bot).filter
            fun bot => bot.ingress.isSome).map (·.name) := by
          intro mem
          obtain ⟨bot, hb, rfl⟩ := List.mem_map.mp mem
          rcases List.mem_append.mp hb with hb | hb
          · exact restart (restarted.starting bot hb)
          · rw [added_eq] at hb
            exact missing (by rw [bot_some (List.mem_filter.mp (List.mem_filter.mp hb).1).1]; rfl)
        rw [started.stops name new, restarted.others name restart] at held
        exact missing (gone name (.inr held))
  · rw [parked, (each name).1]
    congr 1
    rcases still : s.parked name with _ | _
    · rfl
    · rw [Bool.true_and, Bool.true_and, Bool.eq_iff_iff, decide_eq_true_iff]
      refine ⟨fun stays => gone name (.inl ?_), fun found removed => ?_⟩
      · rw [(each name).1, still, decide_eq_true stays]
        rfl
      · rw [(mem_removed.mp removed).2] at found
        cases found

omit [DecidableEq X] in
/-- A move whose call fails ends the parking it began, and starts the bot again. -/
theorem resume_spec (h : Steady s) {bot : Bot X} (hb : bot ∈ s.cfg.bots) (ready : Str → Bool) :
    Steady ((s.parkBoth bot.name).resume bot ready) ∧ ((s.parkBoth bot.name).resume bot ready).cfg = s.cfg ∧
      ∀ name, ((s.parkBoth bot.name).resume bot ready).parked name = (s.parked name && name ≠ bot.name) := by
  obtain ⟨-, -, cancelled, stops⟩ := parkBoth_self s bot.name
  have frame := (frame_parkBoth s bot.name).trans (frame_unpark (s.parkBoth bot.name) bot.name)
  have sound := sound_unpark (sound_parkBoth h.sound bot.name) bot.name
  have unparked := unpark_self (s.parkBoth bot.name) bot.name
  set s₁ := (s.parkBoth bot.name).unpark bot.name with hs₁
  have startable : s₁.Startable (if bot.ingress.isSome then [bot] else []) := by
    split
    · refine ⟨List.nodup_singleton _, fun other ho => ?_⟩
      obtain rfl := List.mem_singleton.mp ho
      exact ⟨unparked, cancelled⟩
    · exact ⟨.nil, nofun⟩
  have answers : ∀ other ∈ s.cfg.bots, other.ingress.isSome → s₁.parked other.name = true ∨
      (s₁.stops other.name).isSome ∨ other ∈ (if bot.ingress.isSome then [bot] else []) := by
    intro other ho ingress
    by_cases same : other.name = bot.name
    · obtain rfl := List.inj_on_of_nodup_map s.cfg.names ho hb same
      rw [if_pos ingress]
      exact .inr (.inr List.mem_cons_self)
    · rw [frame.parked _ same, frame.stops _ same]
      exact (h.answers other ho ingress).imp_right .inl
  obtain ⟨sound, started, answers⟩ := startSources_spec sound startable s.cfg answers ready
  obtain ⟨s', hs'⟩ : ∃ s', s' = (s.parkBoth bot.name).resume bot ready := ⟨_, rfl⟩
  rw [← hs']
  have eq : s₁.startSources s.cfg ready (if bot.ingress.isSome then [bot] else []) = s' := hs' ▸ rfl
  rw [eq] at sound started answers
  have running : s'.cfg = s.cfg := started.cfg.trans frame.cfg
  have parked : ∀ name, s'.parked name = (s.parked name && name ≠ bot.name) := by
    intro name
    rw [started.parked]
    by_cases same : name = bot.name
    · subst same
      rw [unparked]
      simp
    · rw [frame.parked name same]
      simp [same]
  refine ⟨⟨sound, fun name held => ?_, by rw [running]; exact answers⟩, running, parked⟩
  rw [running]
  by_cases same : name = bot.name
  · rw [same, bot_some hb]
    rfl
  · refine h.configured name (held.imp (fun still => ?_) fun some => ?_)
    · rw [parked, Bool.and_eq_true] at still
      exact still.1
    · have new : name ∉ (if bot.ingress.isSome then [bot] else []).map (·.name) := by
        split <;> simp [same]
      rwa [started.stops name new, frame.stops name same] at some

omit [DecidableEq X] in
/-- A move that succeeds parks its bot; any other ends with the bots parked that were. -/
theorem moveBot_spec (h : Steady s) (name : Str) (ending : MoveEnd) (ready : Str → Bool) :
    Steady (s.moveBot name ending ready) ∧ (s.moveBot name ending ready).cfg = s.cfg ∧
      ∀ other, (s.moveBot name ending ready).parked other =
        (s.parked other || (other = name && (s.cfg.bot name).isSome && ending = .moved)) := by
  unfold moveBot
  rcases found : s.cfg.bot name with _ | bot
  · exact ⟨h, rfl, fun other => by simp⟩
  obtain ⟨hb, rfl⟩ := bot_name found
  dsimp only
  split
  next parked =>
    refine ⟨h, rfl, fun other => ?_⟩
    by_cases same : other = bot.name
    · subst same
      rw [show s.parked bot.name = true from parked]
      rfl
    · simp [same]
  next unparked =>
    have unparked : s.parked bot.name = false := Bool.eq_false_iff.mpr unparked
    have failed : ∀ other, (s.parked other && other ≠ bot.name) = s.parked other := by
      intro other
      by_cases same : other = bot.name
      · subst same
        rw [unparked]
        rfl
      · simp [same]
    cases ending with
    | undrained => exact ⟨h, rfl, fun other => by simp⟩
    | busy =>
      obtain ⟨steady, running, parked⟩ := resume_spec h hb ready
      exact ⟨steady, running, fun other => ((parked other).trans (failed other)).trans (by simp)⟩
    | upstream =>
      obtain ⟨steady, running, parked⟩ := resume_spec h hb ready
      exact ⟨steady, running, fun other => ((parked other).trans (failed other)).trans (by simp)⟩
    | moved =>
      have frame := frame_parkBoth s bot.name
      obtain ⟨parked, -, -, stops⟩ := parkBoth_self s bot.name
      refine ⟨⟨sound_parkBoth h.sound bot.name, fun name held => ?_, fun other ho ingress => ?_⟩, rfl, fun other => ?_⟩
      · by_cases same : name = bot.name
        · rw [same]
          exact Option.isSome_of_eq_some (bot_some hb)
        · refine h.configured name (held.imp (fun still => ?_) id)
          rwa [← frame.parked name same]
      · refine (h.answers other ho ingress).imp_left fun still => ?_
        by_cases same : other.name = bot.name
        · rw [same]
          exact parked
        · rwa [← frame.parked _ same] at still
      · by_cases same : other = bot.name
        · subst same
          exact parked.trans (by simp)
        · exact (frame.parked other same).trans (by simp [same])

/-- The app starts with no bot parked. -/
theorem new_spec (serves : Bot X → Bool) (cfg : Config X) :
    Steady (new serves cfg) ∧ (new serves cfg).cfg = cfg ∧ ∀ name, (new serves cfg).parked name = false := by
  obtain ⟨s₁, hs₁⟩ : ∃ s₁, s₁ = (
      { cfg, table := [], started := fun _ => none, stops := fun _ => none, parked := fun _ => false,
        tokens := { next := 1, cancelled := fun _ => false },
        routes := if cfg.server then some [] else none : System X }).setBots serves cfg.bots := ⟨_, rfl⟩
  have parked₁ : ∀ name, s₁.parked name = false := fun _ => hs₁ ▸ rfl
  have stops₁ : ∀ name, s₁.stops name = none := fun _ => hs₁ ▸ rfl
  have sound : Sound s₁ := by
    subst hs₁
    refine ⟨fun entry he => ?_, nofun, fun routes hr route mem => ?_⟩
    · obtain ⟨bot, -, built⟩ := List.mem_filterMap.mp he
      change (if serves bot then some ⟨bot, Gate.new⟩ else none) = some entry at built
      split at built
      · obtain rfl := Option.some.inj built
        rfl
      · cases built
    · change (if cfg.server then some [] else none) = some routes at hr
      split at hr
      · obtain rfl := Option.some.inj hr
        cases mem
      · cases hr
  have startable : s₁.Startable (cfg.bots.filter fun bot => bot.ingress.isSome) := by
    refine ⟨cfg.names.sublist (List.filter_sublist.map _), fun bot _ => ⟨parked₁ _, fun token ht => ?_⟩⟩
    rw [stops₁] at ht
    cases ht
  have answers : ∀ bot ∈ cfg.bots, bot.ingress.isSome → s₁.parked bot.name = true ∨ (s₁.stops bot.name).isSome ∨
      bot ∈ cfg.bots.filter fun bot => bot.ingress.isSome := fun bot hb ingress =>
    .inr (.inr (List.mem_filter.mpr ⟨hb, ingress⟩))
  obtain ⟨sound, started, answers⟩ := startSources_spec sound startable cfg answers fun _ => true
  have eq : s₁.startSources cfg (fun _ => true) (cfg.bots.filter fun bot => bot.ingress.isSome) = new serves cfg := by
    rw [hs₁]
    rfl
  rw [eq] at sound started answers
  have running : (new serves cfg).cfg = cfg := started.cfg.trans (hs₁ ▸ rfl)
  have parked : ∀ name, (new serves cfg).parked name = false := fun name => by rw [started.parked, parked₁]
  refine ⟨⟨sound, fun name held => ?_, by rw [running]; exact answers⟩, running, parked⟩
  rw [running]
  rcases held with still | held
  · rw [parked] at still
    cases still
  · by_contra missing
    have unprepared : name ∉ (cfg.bots.filter fun bot => bot.ingress.isSome).map (·.name) := by
      intro mem
      obtain ⟨bot, hb, rfl⟩ := List.mem_map.mp mem
      exact missing (Option.isSome_of_eq_some (bot_some (List.mem_filter.mp hb).1))
    rw [started.stops name unprepared, stops₁] at held
    cases held

theorem steady_step (h : Steady s) (served : Served s) (serves : Bot X → Bool) (job : Job X) :
    Steady (s.step serves job) := by
  cases job with
  | reload cfg ready => exact (reload_spec h served serves cfg ready).1
  | move name ending ready => exact (moveBot_spec h name ending ready).1

/-- The jobs of a run keep what holds between them, while every configured bot has its entry. -/
theorem steady_run (serves : Bot X → Bool) (cfg : Config X) (jobs : List (Job X))
    (served : ∀ k < jobs.length, Served (run serves cfg (jobs.take k))) : Steady (run serves cfg jobs) := by
  induction jobs using List.reverseRecOn with
  | nil => exact (new_spec serves cfg).1
  | append_singleton jobs job ih =>
    have earlier : ∀ k ≤ jobs.length, (jobs ++ [job]).take k = jobs.take k := fun k hk => List.take_append_of_le_length hk
    have steady := ih fun k hk => earlier k (Nat.le_of_lt hk) ▸ served k (by simp; omega)
    have here : Served (run serves cfg jobs) := by
      have := served jobs.length (by simp)
      rwa [earlier _ (Nat.le_refl _), List.take_length] at this
    rw [run, List.foldl_append]
    exact steady_step steady here serves job

/-- What may end the parking of a bot over a job. -/
def Leaves (s : System X) (name : Str) : Job X → Prop
  | .reload cfg _ => cfg.bot name = none ∨
      ∃ before after, s.cfg.bot name = some before ∧ cfg.bot name = some after ∧
        after.upstream.sameServer before.upstream = false
  | .move bot ending _ => bot = name ∧ ending ≠ .moved

local instance lawfulBEqName : LawfulBEq Str := inferInstance

/-- The parked bots after a job. -/
def parkedAfter (s : System X) (name : Str) : Job X → Bool
  | .reload cfg _ => s.isParked name && (cfg.bot name).isSome && name ∉ (report s.cfg cfg).upstreamChanged
  | .move bot ending _ => s.isParked name || (name = bot && (s.cfg.bot bot).isSome && ending = .moved)

theorem step_parked (h : Steady s) (served : Served s) (serves : Bot X → Bool) (job : Job X) (name : Str) :
    (s.step serves job).isParked name = s.parkedAfter name job := by
  cases job with
  | reload cfg ready => exact (reload_spec h served serves cfg ready).2.2 name
  | move bot ending ready => exact (moveBot_spec h bot ending ready).2.2 name

theorem leaves_of_unparked (parked : s.isParked name = true) {job : Job X} (after : s.parkedAfter name job = false) :
    s.Leaves name job := by
  cases job with
  | reload cfg ready =>
    simp only [parkedAfter, parked, Bool.true_and, Bool.and_eq_false_iff, Option.isSome_eq_false_iff,
      Option.isNone_iff_eq_none, decide_eq_false_iff_not, not_not, mem_upstreamChanged, Bool.not_eq_true'] at after
    exact after
  | move bot ending ready =>
    simp only [parkedAfter, parked, Bool.true_or] at after
    cases after

/-- Between two jobs of any run in which every configured bot has a gateway entry: a configured bot's gate is parked
    exactly when the bot is; a parked bot has no started source, and its webhook route answers by a cancelled token; and
    the next job ends its parking only by removing it or moving it to another server (a move ends only the parking it
    began itself, when it fails). -/
theorem run_parked (serves : Bot X → Bool) (cfg : Config X) (jobs : List (Job X))
    (served : ∀ k, Served (run serves cfg (jobs.take k))) :
    (∀ bot ∈ (run serves cfg jobs).cfg.bots, ∃ entry, (run serves cfg jobs).named bot.name = some entry ∧
      entry.gate.parked = (run serves cfg jobs).isParked bot.name) ∧
    (∀ name, (run serves cfg jobs).isParked name = true → (run serves cfg jobs).started name = none ∧
      ((run serves cfg jobs).ingestOf name).2.tokens.cancelled ((run serves cfg jobs).ingestOf name).1 = true ∧
      ∀ routes, (run serves cfg jobs).routes = some routes → ∀ token, (name, token) ∈ routes →
        (run serves cfg jobs).tokens.cancelled token = true) ∧
    ∀ job name, ((run serves cfg jobs).step serves job).isParked name = (run serves cfg jobs).parkedAfter name job ∧
      ((run serves cfg jobs).isParked name = true → ((run serves cfg jobs).step serves job).isParked name = false →
        (run serves cfg jobs).Leaves name job) := by
  have steady := steady_run serves cfg jobs fun k _ => served k
  have here : Served (run serves cfg jobs) := by
    have := served jobs.length
    rwa [List.take_length] at this
  refine ⟨fun bot hb => ?_, fun name parked => ?_, fun job name => ?_⟩
  · obtain ⟨entry, named⟩ := Option.isSome_iff_exists.mp (here bot hb)
    exact ⟨entry, named, gate_parked steady.sound named⟩
  · exact ⟨(steady.sound.stopped name parked).1, route_cancelled steady.sound parked⟩
  · have eq := step_parked steady here serves job name
    exact ⟨eq, fun parked after => leaves_of_unparked parked (eq ▸ after)⟩

section Example

private def server (name : Str) : Upstream := { name, url := name, kind := .local, localMode := true }

private def webhookBot (upstream : Str) : Config Unit where
  bots := [{ name := [97], token := [116], upstream := server upstream, ingress := some (.webhook ()), settings := () }]
  server := true
  names := List.nodup_singleton _

/-- The bot is moved off its server, a reload that leaves its server keeps it parked, and one that changes it starts it
    there. -/
theorem run_parked_moved :
    let jobs : List (Job Unit) := [.move [97] .moved fun _ => true, .reload (webhookBot [120]) fun _ => true]
    let s := run (fun _ => true) (webhookBot [120]) jobs
    s.isParked [97] = true ∧ s.started [97] = none ∧
      (s.step (fun _ => true) (.reload (webhookBot [121]) fun _ => true)).isParked [97] = false := by
  intro jobs s
  have served : ∀ k, Served (run (fun _ => true) (webhookBot [120]) (jobs.take k)) := by
    intro k
    match k with
    | 0 => decide
    | 1 => decide
    | _ + 2 =>
      rw [List.take_of_length_le (Nat.le_add_left 2 _)]
      decide
  obtain ⟨-, stopped, next⟩ := run_parked (fun _ => true) (webhookBot [120]) jobs served
  have parked : s.isParked [97] = true := by decide
  exact ⟨parked, (stopped _ parked).1, ((next (.reload (webhookBot [121]) fun _ => true) [97]).1).trans (by decide)⟩

end Example

end System
end Tgin.Parking
