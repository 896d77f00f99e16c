import Tgin.DataServer

/-! Routes over runs of reloads, ends of drains and rebuilds: what each path reaches, and who may poll. -/

namespace Tgin.DataServer
open Rules
open Config (World Loaded Loads Routable utf8 brace close)
open Engine (Shared Control)
open Gateway (Urls)
open LocalFiles (fromUtf8 percentDecode)
open Merge (Map fill insertAll lookup_fill lookup_insertAll)

variable {u : Urls} {m : Matchers} {IpNet : Type}

/-! ### What a file gives -/

theorem lookup_foldl_configured (l : List (Str × Loaded.Pull)) (start : Served) :
    let after := l.foldl (fun served consumer =>
      { auth := served.auth.insert consumer.1 consumer.2.authToken, aliases := insertAll consumer.2.aliases consumer.1 served.aliases }) start
    ((l.map (·.1)).Nodup → ∀ name, after.auth.lookup name = ((l.find? (·.1 = name)).map (·.2.authToken)).or (start.auth.lookup name)) ∧
      ((l.flatMap (·.2.aliases)).Nodup → ∀ path,
        after.aliases.lookup path = ((l.find? (path ∈ ·.2.aliases)).map (·.1)).or (start.aliases.lookup path)) := by
  induction l generalizing start with
  | nil => exact ⟨fun _ _ => rfl, fun _ _ => rfl⟩
  | cons consumer l ih =>
    obtain ⟨auth, aliases⟩ := ih { auth := start.auth.insert consumer.1 consumer.2.authToken
                                   aliases := insertAll consumer.2.aliases consumer.1 start.aliases }
    refine ⟨fun nodup name => ?_, fun nodup path => ?_⟩
    · rw [List.map_cons, List.nodup_cons] at nodup
      refine (auth nodup.2 name).trans ?_
      by_cases same : consumer.1 = name
      · subst same
        have absent : l.find? (·.1 = consumer.1) = none :=
          List.find?_eq_none.mpr fun other mem eq => nodup.1 (List.mem_map.mpr ⟨other, mem, of_decide_eq_true eq⟩)
        rw [absent, List.find?_cons_of_pos (by simp), AList.lookup_insert]
        rfl
      · rw [List.find?_cons_of_neg (by simpa using same), AList.lookup_insert_ne fun eq => same eq.symm]
    · rw [List.flatMap_cons, List.nodup_append] at nodup
      refine (aliases nodup.2.1 path).trans ?_
      rw [lookup_insertAll]
      by_cases here : path ∈ consumer.2.aliases
      · have absent : l.find? (path ∈ ·.2.aliases) = none :=
          List.find?_eq_none.mpr fun other mem there =>
            nodup.2.2 path here path (List.mem_flatMap.mpr ⟨other, mem, of_decide_eq_true there⟩) rfl
        rw [absent, List.find?_cons_of_pos (by simpa using here), if_pos here]
        rfl
      · rw [List.find?_cons_of_neg (by simpa using here), if_neg here]

theorem map_filterMap_sublist {α β γ : Type} {f : α → Option β} {g : β → γ} {h : α → γ} (same : ∀ a b, f a = some b → g b = h a)
    (l : List α) : ((l.filterMap f).map g).Sublist (l.map h) := by
  induction l with
  | nil => exact .slnil
  | cons a l ih =>
    rw [List.map_cons]
    cases eq : f a with
    | none =>
      rw [List.filterMap_cons_none eq]
      exact ih.cons _
    | some b =>
      rw [List.filterMap_cons_some eq, List.map_cons, same a b eq]
      exact ih.cons_cons _

/-- The pull consumer of a file. -/
def File.pull (file : File u m IpNet) (name : Str) : Option Loaded.Pull := ((pulls file.config).find? (·.1 = name)).map (·.2)

theorem pullOf_eq_some {consumer : Loaded.Consumer u} {named : Str × Loaded.Pull} :
    pullOf consumer = some named ↔ consumer.kind = .pull named.2 ∧ consumer.name = named.1 := by
  unfold pullOf
  cases eq : consumer.kind with
  | pull pull =>
    obtain ⟨name, pull'⟩ := named
    simp [and_comm]
  | push push => simp

theorem hookOf_eq_some {bot : Loaded.Bot u IpNet} {hook : Loaded.Webhook u IpNet} :
    hookOf bot = some hook ↔ bot.ingress = some (.webhook hook) := by
  unfold hookOf
  rcases bot.ingress with _ | _ | _ <;> simp

namespace File
variable (file : File u m IpNet)

theorem pulls_names : ((pulls file.config).map (·.1)).Nodup := by
  have names : (file.config.consumers.map (·.name)).Nodup := by
    rw [file.loads.consumer_names]
    exact file.raw.consumers.keys
  exact (map_filterMap_sublist (fun consumer named eq => (pullOf_eq_some.mp eq).2.symm) _).nodup names

theorem pulls_paths : (pulls file.config).flatMap (·.2.aliases) = file.config.consumers.flatMap (·.kind.paths) := by
  unfold pulls
  induction file.config.consumers with
  | nil => rfl
  | cons consumer consumers ih =>
    rw [List.flatMap_cons, ← ih]
    cases eq : consumer.kind with
    | pull pull =>
      have picked : pullOf consumer = some (consumer.name, pull) := pullOf_eq_some.mpr ⟨eq, rfl⟩
      rw [List.filterMap_cons_some picked, List.flatMap_cons]
      rfl
    | push push =>
      rw [List.filterMap_cons_none (by rw [pullOf, eq])]
      rfl

theorem webhooks_paths : webhooks file.config = file.config.bots.flatMap (·.paths) := by
  unfold webhooks
  induction file.config.bots with
  | nil => rfl
  | cons bot bots ih =>
    rw [List.flatMap_cons, ← ih, Loaded.Bot.paths]
    cases eq : bot.ingress with
    | none => rw [List.filterMap_cons_none (by rw [hookOf, eq]; rfl)]; rfl
    | some ingress =>
      cases ingress with
      | longPoll poll => rw [List.filterMap_cons_none (by rw [hookOf, eq]; rfl)]; rfl
      | webhook hook => rw [List.filterMap_cons_some (b := hook.path) (by rw [hookOf, eq]; rfl)]; rfl

/-- A path of a file is an alias or a webhook's. -/
theorem mem_paths {path : Str} : path ∈ file.config.paths ↔
    (∃ named ∈ pulls file.config, path ∈ named.2.aliases) ∨ path ∈ webhooks file.config := by
  rw [Loaded.paths, ← file.pulls_paths, ← file.webhooks_paths, List.mem_append, List.mem_flatMap]

theorem aliases_nodup : ((pulls file.config).flatMap (·.2.aliases)).Nodup := by
  have paths := file.loads.paths
  rw [Loaded.paths, ← file.pulls_paths] at paths
  exact (List.nodup_append.mp paths).1

/-- An alias has one consumer. -/
theorem alias_unique {named other : Str × Loaded.Pull} {path : Str} (mem : named ∈ pulls file.config) (mem' : other ∈ pulls file.config)
    (serves : path ∈ named.2.aliases) (serves' : path ∈ other.2.aliases) : named = other := by
  by_contra ne
  have apart : Std.Symm (Function.onFun List.Disjoint fun named : Str × Loaded.Pull => named.2.aliases) := ⟨fun _ _ h => h.symm⟩
  exact (List.nodup_flatMap.mp file.aliases_nodup).2.forall mem mem' ne serves serves'

theorem pull_eq_some {name : Str} {pull : Loaded.Pull} : file.pull name = some pull ↔ (name, pull) ∈ pulls file.config := by
  unfold File.pull
  constructor
  · intro found
    obtain ⟨named, there, rfl⟩ := Option.map_eq_some_iff.mp found
    have named' : named.1 = name := by simpa using List.find?_some there
    exact named' ▸ List.mem_of_find?_eq_some there
  · intro mem
    have found : ((pulls file.config).find? (·.1 = name)).isSome := List.find?_isSome.mpr ⟨_, mem, by simp⟩
    obtain ⟨named, found⟩ := Option.isSome_iff_exists.mp found
    have named' : named.1 = name := by simpa using List.find?_some found
    have same := List.inj_on_of_nodup_map file.pulls_names (List.mem_of_find?_eq_some found) mem named'
    rw [found, same]
    rfl

theorem configured_auth (name : Str) : (configured file.config).auth.lookup name = (file.pull name).map (·.authToken) := by
  refine ((lookup_foldl_configured (pulls file.config) _).1 file.pulls_names name).trans ?_
  rw [AList.lookup_empty, Option.or_none, File.pull, Option.map_map]
  rfl

theorem configured_aliases {path name : Str} : (configured file.config).aliases.lookup path = some name ↔
    ∃ pull, file.pull name = some pull ∧ path ∈ pull.aliases := by
  have looked := (lookup_foldl_configured (pulls file.config) { auth := ∅, aliases := ∅ }).2 file.aliases_nodup path
  rw [AList.lookup_empty, Option.or_none] at looked
  refine Eq.congr_left looked |>.trans ?_
  constructor
  · intro found
    obtain ⟨named, there, rfl⟩ := Option.map_eq_some_iff.mp found
    exact ⟨named.2, file.pull_eq_some.mpr (List.mem_of_find?_eq_some there), by simpa using List.find?_some there⟩
  · rintro ⟨pull, found, serves⟩
    have mem := file.pull_eq_some.mp found
    have there : ((pulls file.config).find? (path ∈ ·.2.aliases)).isSome := List.find?_isSome.mpr ⟨_, mem, by simpa using serves⟩
    obtain ⟨named, there⟩ := Option.isSome_iff_exists.mp there
    obtain rfl := file.alias_unique (List.mem_of_find?_eq_some there) mem (by simpa using List.find?_some there) serves
    rw [there]
    rfl

end File

/-! ### What is served next -/

section
variable (file : File u m IpNet) (previous : Served) (engine : Shared m)

theorem served_auth (name : Str) : (served file.config previous engine).auth.lookup name =
    match file.pull name with
    | some pull => some pull.authToken
    | none => if (engine.pullConsumer name).isSome then previous.auth.lookup name else none := by
  unfold served
  dsimp only
  rw [lookup_fill previous.auth.nodupKeys, file.configured_auth]
  cases file.pull name with
  | some pull => cases eq : previous.auth.entries.dlookup name <;> simp
  | none =>
    simp only [Option.map_none, Option.isSome_none, Bool.not_false, Bool.true_and, Option.or_none]
    rw [show previous.auth.lookup name = previous.auth.entries.dlookup name from rfl]
    cases previous.auth.entries.dlookup name with
    | none => simp
    | some token => rw [Option.filter_some]

theorem served_aliases {path name : Str} : (served file.config previous engine).aliases.lookup path = some name ↔
    (∃ pull, file.pull name = some pull ∧ path ∈ pull.aliases) ∨
      path ∉ file.config.paths ∧ previous.aliases.lookup path = some name ∧ file.pull name = none ∧
        (engine.pullConsumer name).isSome ∧ (previous.auth.lookup name).isSome := by
  have looked : (served file.config previous engine).aliases.lookup path =
      ((previous.aliases.entries.dlookup path).filter fun name =>
        (!((configured file.config).auth.lookup name).isSome && ((served file.config previous engine).auth.lookup name).isSome) &&
          ((configured file.config).aliases.lookup path).isNone && !(webhooks file.config).contains path).or
        ((configured file.config).aliases.lookup path) := lookup_fill previous.aliases.nodupKeys
  rw [looked]
  cases here : (configured file.config).aliases.lookup path with
  | some owner =>
    -- A path of the file is its owner's.
    have given := file.configured_aliases.mp here
    have taken : path ∈ file.config.paths := by
      obtain ⟨pull, found, serves⟩ := given
      exact file.mem_paths.mpr (.inl ⟨_, file.pull_eq_some.mp found, serves⟩)
    rw [← file.configured_aliases, here, or_iff_left fun fresh => fresh.1 taken]
    cases previous.aliases.entries.dlookup path <;> simp
  | none =>
    have unowned : ¬∃ pull, file.pull name = some pull ∧ path ∈ pull.aliases := fun given => by
      rw [file.configured_aliases.mpr given] at here
      cases here
    have fresh : path ∉ file.config.paths ↔ path ∉ webhooks file.config := by
      rw [file.mem_paths, not_or, and_iff_right]
      rintro ⟨named, mem, serves⟩
      rw [file.configured_aliases.mpr ⟨_, file.pull_eq_some.mpr mem, serves⟩] at here
      cases here
    rw [or_iff_right unowned, fresh, Option.or_none, show previous.aliases.lookup path = previous.aliases.entries.dlookup path from rfl]
    cases previous.aliases.entries.dlookup path with
    | none => simp
    | some owner =>
      rw [Option.filter_some, file.configured_auth, served_auth]
      by_cases same : owner = name
      · subst same
        cases file.pull owner with
        | some pull => simp
        | none => by_cases holds : (engine.pullConsumer owner).isSome <;> cases previous.auth.lookup owner <;> simp [holds, and_comm]
      · simp [same]

end

/-! ### What was served -/

/-- The routes of a file as they were built. -/
structure Build (u : Urls) (m : Matchers) (IpNet : Type) where
  file : File u m IpNet
  /-- The engine then. -/
  engine : Shared m

/-- A pull consumer that the file does not have and that drained then. -/
def Build.Drained (build : Build u m IpNet) (name : Str) : Prop := build.file.pull name = none ∧ (build.engine.pullConsumer name).isSome

/-- The pull consumer is served as the last file had it: it drained whenever routes were built since. The builds are the newest first. -/
def ServedAs (builds : List (Build u m IpNet)) (name : Str) (pull : Loaded.Pull) : Prop :=
  ∃ later build earlier, builds = later ++ build :: earlier ∧ build.file.pull name = some pull ∧ ∀ b ∈ later, b.Drained name

/-- The path is an alias of the pull consumer, as the last file that had the consumer gives it, and no file since has another use for it. -/
def Reaches (builds : List (Build u m IpNet)) (path name : Str) : Prop :=
  ∃ later build earlier pull, builds = later ++ build :: earlier ∧ build.file.pull name = some pull ∧ path ∈ pull.aliases ∧
    ∀ b ∈ later, b.Drained name ∧ path ∉ b.file.config.paths

section
variable {builds : List (Build u m IpNet)} {build : Build u m IpNet} {name path : Str} {pull : Loaded.Pull}

theorem servedAs_nil : ¬ServedAs ([] : List (Build u m IpNet)) name pull := by
  rintro ⟨later, build, earlier, eq, -⟩
  simp at eq

theorem servedAs_cons : ServedAs (build :: builds) name pull ↔
    build.file.pull name = some pull ∨ build.Drained name ∧ ServedAs builds name pull := by
  constructor
  · rintro ⟨later, last, earlier, eq, had, drained⟩
    rw [List.cons_eq_append_iff] at eq
    rcases eq with ⟨rfl, eq⟩ | ⟨later, rfl, rfl⟩
    · cases eq
      exact .inl had
    · rw [List.forall_mem_cons] at drained
      exact .inr ⟨drained.1, later, last, earlier, rfl, had, drained.2⟩
  · rintro (had | ⟨drained, later, last, earlier, rfl, had, rest⟩)
    · exact ⟨[], build, builds, rfl, had, fun _ mem => absurd mem List.not_mem_nil⟩
    · exact ⟨build :: later, last, earlier, rfl, had, List.forall_mem_cons.mpr ⟨drained, rest⟩⟩

theorem reaches_nil : ¬Reaches ([] : List (Build u m IpNet)) path name := by
  rintro ⟨later, build, earlier, pull, eq, -⟩
  simp at eq

theorem reaches_cons : Reaches (build :: builds) path name ↔ (∃ pull, build.file.pull name = some pull ∧ path ∈ pull.aliases) ∨
    (build.Drained name ∧ path ∉ build.file.config.paths) ∧ Reaches builds path name := by
  constructor
  · rintro ⟨later, last, earlier, pull, eq, had, serves, drained⟩
    rw [List.cons_eq_append_iff] at eq
    rcases eq with ⟨rfl, eq⟩ | ⟨later, rfl, rfl⟩
    · cases eq
      exact .inl ⟨pull, had, serves⟩
    · rw [List.forall_mem_cons] at drained
      exact .inr ⟨drained.1, later, last, earlier, pull, rfl, had, serves, drained.2⟩
  · rintro (⟨pull, had, serves⟩ | ⟨drained, later, last, earlier, pull, rfl, had, serves, rest⟩)
    · exact ⟨[], build, builds, pull, rfl, had, serves, fun _ mem => absurd mem List.not_mem_nil⟩
    · exact ⟨build :: later, last, earlier, pull, rfl, had, serves, List.forall_mem_cons.mpr ⟨drained, rest⟩⟩

/-- Where an alias reaches a consumer, the consumer is served. -/
theorem Reaches.servedAs (h : Reaches builds path name) : ∃ pull, ServedAs builds name pull := by
  obtain ⟨later, build, earlier, pull, eq, had, -, drained⟩ := h
  exact ⟨pull, later, build, earlier, eq, had, fun b mem => (drained b mem).1⟩

end

/-- What is served says what was built. -/
structure Served.Right (served : Served) (builds : List (Build u m IpNet)) : Prop where
  auth : ∀ name token, served.auth.lookup name = some token ↔ ∃ pull, ServedAs builds name pull ∧ pull.authToken = token
  aliases : ∀ path name, served.aliases.lookup path = some name ↔ Reaches builds path name

theorem right_served {previous : Served} {builds : List (Build u m IpNet)} (h : previous.Right builds) (build : Build u m IpNet) :
    (served build.file.config previous build.engine).Right (build :: builds) where
  auth name token := by
    rw [served_auth]
    simp only [servedAs_cons, Build.Drained]
    cases had : build.file.pull name with
    | some pull => simp
    | none =>
      simp only [reduceCtorEq, false_or, true_and]
      by_cases holds : (build.engine.pullConsumer name).isSome
      · rw [if_pos holds, h.auth]
        simp [holds]
      · rw [if_neg holds]
        simp [holds]
  aliases path name := by
    rw [served_aliases, reaches_cons]
    refine or_congr_right ?_
    rw [h.aliases]
    constructor
    · rintro ⟨fresh, reaches, gone, holds, -⟩
      exact ⟨⟨⟨gone, holds⟩, fresh⟩, reaches⟩
    · rintro ⟨⟨⟨gone, holds⟩, fresh⟩, reaches⟩
      obtain ⟨pull, served⟩ := reaches.servedAs
      exact ⟨fresh, reaches, gone, holds, Option.isSome_iff_exists.mpr ⟨_, (h.auth name pull.authToken).mpr ⟨pull, served, rfl⟩⟩⟩

/-! ### The router -/

theorem isLiteral_of_routable {w : World u} {path : Str} (h : Routable w path) : isLiteral path = true := by
  obtain ⟨open', close', segments⟩ := h.literal
  simp only [isLiteral, Bool.and_eq_true, decide_eq_true_eq, Bool.not_eq_true', List.all_eq_true]
  refine ⟨⟨⟨h.rooted, ?_⟩, ?_⟩, segments⟩
  · simpa using open'
  · simpa using close'

theorem lookup_iff {α β : Type} [BEq α] [LawfulBEq α] {l : List (α × β)} (nodup : (l.map (·.1)).Nodup) {k : α} {b : β} :
    l.lookup k = some b ↔ (k, b) ∈ l := by
  constructor
  · intro found
    obtain ⟨before, after, rfl, -⟩ := List.lookup_eq_some_iff.mp found
    simp
  · intro mem
    have there : (l.lookup k).isSome := List.lookup_isSome_iff.mpr ⟨_, mem, by simp⟩
    obtain ⟨b', found⟩ := Option.isSome_iff_exists.mp there
    obtain ⟨before, after, rfl, -⟩ := List.lookup_eq_some_iff.mp found
    have same := List.inj_on_of_nodup_map nodup (show (k, b') ∈ before ++ (k, b') :: after by simp) mem rfl
    rw [found, (Prod.mk.inj same).2]

/-- Routes with different literal paths are all added. -/
theorem foldlM_add {l : List (Str × Route IpNet)} {routes : Routes IpNet} (literal : ∀ entry ∈ l, isLiteral entry.1 = true)
    (nodup : ((routes ++ l).map (·.1)).Nodup) :
    l.foldlM (fun routes entry => Routes.add routes entry.1 entry.2) routes = some (routes ++ l) := by
  induction l generalizing routes with
  | nil => rw [List.append_nil]; rfl
  | cons entry l ih =>
    rw [List.forall_mem_cons] at literal
    have fresh : routes.lookup entry.1 = none := by
      rw [List.lookup_eq_none_iff]
      intro other mem
      rw [List.map_append, List.nodup_append] at nodup
      have ne := nodup.2.2 other.1 (List.mem_map_of_mem mem) entry.1 (List.mem_map_of_mem List.mem_cons_self)
      exact bne_iff_ne.mpr ne.symm
    have added : Routes.add routes entry.1 entry.2 = some (routes ++ [entry]) := by
      rw [Routes.add, literal.1, fresh]
      rfl
    rw [List.foldlM_cons, added]
    refine (ih literal.2 ?_).trans ?_
    · rwa [List.append_assoc, List.singleton_append]
    · rw [List.append_assoc, List.singleton_append]

section
variable (c : Crates u) (server : Loaded.Server IpNet) (engine : Shared m) (ingest : Str → Nat)

/-- The route of a bot with a webhook that the engine has. -/
def hookRoute (bot : Loaded.Bot u IpNet) : Option (Str × Route IpNet) :=
  (hookOf bot).bind fun hook => (engine.sourceId bot.name).map fun id => (hook.path, .webhook (ingressOf c server ingest bot hook id))

theorem addWebhook_eq (routes : Routes IpNet) (bot : Loaded.Bot u IpNet) : addWebhook c server engine ingest routes bot =
    match hookRoute c server engine ingest bot with
    | some entry => routes.add entry.1 entry.2
    | none => some routes := by
  unfold addWebhook hookRoute
  cases hookOf bot with
  | none => rfl
  | some hook =>
    cases engine.sourceId bot.name <;> rfl

theorem hookRoute_path {bot : Loaded.Bot u IpNet} {entry : Str × Route IpNet} (h : hookRoute c server engine ingest bot = some entry) :
    (hookOf bot).map (·.path) = some entry.1 := by
  unfold hookRoute at h
  obtain ⟨hook, found, h⟩ := Option.bind_eq_some_iff.mp h
  obtain ⟨id, -, rfl⟩ := Option.map_eq_some_iff.mp h
  rw [found]
  rfl

theorem hookRoutes_sublist (bots : List (Loaded.Bot u IpNet)) : ((bots.filterMap (hookRoute c server engine ingest)).map (·.1)).Sublist
    (bots.filterMap fun bot => (hookOf bot).map (·.path)) := by
  induction bots with
  | nil => exact .slnil
  | cons bot bots ih =>
    cases eq : hookRoute c server engine ingest bot with
    | none =>
      rw [List.filterMap_cons_none eq]
      exact ih.trans ((List.sublist_cons_self bot bots).filterMap _)
    | some entry =>
      have path := hookRoute_path c server engine ingest eq
      rw [List.filterMap_cons_some eq, List.map_cons, List.filterMap_cons_some (f := fun bot => (hookOf bot).map (·.path)) path]
      exact ih.cons_cons _

theorem foldlM_addWebhook (bots : List (Loaded.Bot u IpNet)) (routes : Routes IpNet) :
    bots.foldlM (addWebhook c server engine ingest) routes =
      (bots.filterMap (hookRoute c server engine ingest)).foldlM (fun routes entry => Routes.add routes entry.1 entry.2) routes := by
  induction bots generalizing routes with
  | nil => rfl
  | cons bot bots ih =>
    rw [List.foldlM_cons, addWebhook_eq]
    cases eq : hookRoute c server engine ingest bot with
    | none =>
      rw [List.filterMap_cons_none eq]
      exact ih routes
    | some entry =>
      rw [List.filterMap_cons_some eq, List.foldlM_cons]
      exact congrArg _ (funext ih)

/-- The routes that are served. -/
def routesOf (file : File u m IpNet) (served : Served) : Routes IpNet :=
  file.config.bots.filterMap (hookRoute c server engine ingest) ++ served.aliases.entries.map fun entry => (entry.1, .pull entry.2)

variable (file : File u m IpNet) {served : Served} (literal : ∀ path name, served.aliases.lookup path = some name → isLiteral path = true)
  (apart : ∀ path ∈ webhooks file.config, served.aliases.lookup path = none)

include apart in
theorem routesOf_nodup : ((routesOf c server engine ingest file served).map (·.1)).Nodup := by
  have hooks := hookRoutes_sublist c server engine ingest file.config.bots
  have paths := file.loads.paths
  rw [Loaded.paths, ← file.webhooks_paths] at paths
  rw [routesOf, List.map_append, List.map_map]
  refine List.nodup_append.mpr ⟨hooks.nodup (List.nodup_append.mp paths).2.1, served.aliases.keys_nodup, ?_⟩
  rintro path mem _ mem' rfl
  have free := apart path (hooks.subset mem)
  exact AList.lookup_eq_none.mp free (AList.mem_keys.mpr mem')

include literal apart in
/-- Building the routes does not panic. -/
theorem router_eq : router c file.config server engine ingest served =
    some { routes := routesOf c server engine ingest file served, auth := served.auth } := by
  have nodup := routesOf_nodup c server engine ingest file apart
  have hooks : file.config.bots.foldlM (addWebhook c server engine ingest) ([] : Routes IpNet) =
      some (file.config.bots.filterMap (hookRoute c server engine ingest)) := by
    rw [foldlM_addWebhook]
    refine foldlM_add (fun entry mem => ?_) ?_
    · obtain ⟨bot, memBot, route⟩ := List.mem_filterMap.mp mem
      have path : entry.1 ∈ webhooks file.config := List.mem_filterMap.mpr ⟨bot, memBot, hookRoute_path c server engine ingest route⟩
      exact isLiteral_of_routable (file.loads.routable _ (file.mem_paths.mpr (.inr path)))
    · rw [routesOf, List.map_append] at nodup
      exact (List.nodup_append.mp nodup).1
  have aliases : served.aliases.entries.foldlM (fun routes entry => Routes.add routes entry.1 (.pull entry.2))
      (file.config.bots.filterMap (hookRoute c server engine ingest)) = some (routesOf c server engine ingest file served) := by
    refine Eq.trans ?_ (foldlM_add (l := served.aliases.entries.map fun entry => (entry.1, .pull entry.2)) ?_ nodup)
    · rw [List.foldlM_map]
    · intro entry mem
      obtain ⟨written, there, rfl⟩ := List.mem_map.mp mem
      exact literal written.1 written.2 (AList.mem_lookup_iff.mpr there)
  rw [router, hooks]
  simp only [Option.bind_eq_bind, Option.bind_some]
  rw [aliases]
  rfl

end

/-! ### A run -/

/-- A step of the engine that is no reload leaves the bots their ids. -/
theorem control_config {shared : Shared m} (h : Engine.Sourced shared.state) {control : Control} (live : ∀ new, control ≠ .apply new) :
    (shared.control control).state.config = shared.state.config ∧
      ∀ name, (shared.control control).sourceId name = shared.sourceId name := by
  have config : (shared.control control).state.config = shared.state.config := by
    cases control with
    | apply new => exact absurd rfl (live new)
    | retire slot drain =>
      rcases shared.retire_cases slot drain with ⟨tasks, eq⟩ | ⟨-, eq⟩ <;> rw [eq]
      rfl
    | setRuntimeEndpoint consumer source token endpoint =>
      exact congrArg (·.config) (shared.setRuntimeEndpoint_state consumer source token endpoint)
    | setUsername source username => exact (Engine.source_setUsername shared source username 0).2.2.1
  refine ⟨config, fun name => ?_⟩
  obtain ⟨sourced, next⟩ := Engine.control_sourced shared control h
  cases known : shared.state.sourceNamed name with
  | some info =>
    have configured := (h.sourceNamed_isSome name).mp (by rw [known]; rfl)
    obtain ⟨info', known', same⟩ := next.kept known (config ▸ configured)
    rw [Shared.sourceId, Shared.sourceId, known, known', Option.map_some, same]
    rfl
  | none =>
    have unknown : ¬(shared.state.sourceNamed name).isSome := by rw [known]; exact Bool.false_ne_true
    rw [h.sourceNamed_isSome, ← config, ← sourced.sourceNamed_isSome, Option.not_isSome_iff_eq_none] at unknown
    rw [Shared.sourceId, Shared.sourceId, known, unknown]

namespace System
variable (c : Crates u)

/-- The routes that a step builds. -/
def built (sys : System u m IpNet) : Action u m IpNet → Option (Build u m IpNet)
  | .rebuild _ => if sys.file.config.server.isSome then some { file := sys.file, engine := sys.engine } else none
  | _ => none

/-- The routes that were built over a run, the newest first. -/
def builds (sys : System u m IpNet) (actions : List (Action u m IpNet)) : List (Build u m IpNet) :=
  (actions.foldl (fun state action => (state.1.step c action, (state.1.built action).toList ++ state.2))
    (sys, [{ file := sys.file, engine := sys.engine }])).2

variable {c}

theorem builds_eq (sys : System u m IpNet) (actions : List (Action u m IpNet)) :
    actions.foldl (fun state action => (state.1.step c action, (state.1.built action).toList ++ state.2))
      (sys, [{ file := sys.file, engine := sys.engine }]) = (sys.run c actions, sys.builds c actions) := by
  refine Prod.ext ?_ rfl
  generalize [({ file := sys.file, engine := sys.engine } : Build u m IpNet)] = builds
  induction actions generalizing sys builds with
  | nil => rfl
  | cons action actions ih => exact ih (sys.step c action) _

theorem run_concat (sys : System u m IpNet) (actions : List (Action u m IpNet)) (action : Action u m IpNet) :
    sys.run c (actions ++ [action]) = (sys.run c actions).step c action ∧
      sys.builds c (actions ++ [action]) = ((sys.run c actions).built action).toList ++ sys.builds c actions := by
  constructor
  · rw [run, List.foldl_append]
    rfl
  · rw [builds, List.foldl_append, builds_eq]
    rfl

variable (c) in
/-- What holds of the routes that are served, of the file `last.file`. -/
structure Routed (sys : System u m IpNet) (last : Build u m IpNet) : Prop where
  routes : ∃ server ingest, last.file.config.server = some server ∧
    sys.router = some { routes := routesOf c server last.engine ingest last.file sys.served, auth := sys.served.auth }
  apart : ∀ path ∈ webhooks last.file.config, sys.served.aliases.lookup path = none
  sources : ∀ bot ∈ last.file.config.bots, (last.engine.sourceId bot.name).isSome
  /-- An id is the bot's, whatever was reloaded since. -/
  names : ∀ name id, last.engine.sourceId name = some id → sys.engine.state.sourceNames[id.toNat]? = some name
  current : sys.reloading = false → sys.file.config.server.isSome →
    last.file = sys.file ∧ ∀ name, sys.engine.sourceId name = last.engine.sourceId name

variable (c) in
/-- The invariant of a run. -/
structure Inv (sys : System u m IpNet) (builds : List (Build u m IpNet)) : Prop where
  instances : sys.engine.Instances
  sourced : Engine.Sourced sys.engine.state
  config : sys.engine.state.config = sys.file.forEngine c
  right : sys.served.Right builds
  routed : ∃ last earlier, builds = last :: earlier ∧ sys.Routed c last

/-- Serving the routes of a file. -/
theorem rebuild_inv (sys : System u m IpNet) {builds : List (Build u m IpNet)} (instances : sys.engine.Instances)
    (sourced : Engine.Sourced sys.engine.state) (config : sys.engine.state.config = sys.file.forEngine c) (right : sys.served.Right builds)
    {server : Loaded.Server IpNet} (serves : sys.file.config.server = some server) (ingest : Str → Nat) (reloading : Bool) :
    Inv c { sys.rebuild c ingest with reloading } ({ file := sys.file, engine := sys.engine } :: builds) := by
  have next := right_served right { file := sys.file, engine := sys.engine }
  have literal (path name : Str) (found : (DataServer.served sys.file.config sys.served sys.engine).aliases.lookup path = some name) :
      isLiteral path = true := by
    obtain ⟨later, build, earlier, pull, -, had, alias', -⟩ := (next.aliases path name).mp found
    exact isLiteral_of_routable (build.file.loads.routable path
      (build.file.mem_paths.mpr (.inl ⟨_, build.file.pull_eq_some.mp had, alias'⟩)))
  have apart (path : Str) (mem : path ∈ webhooks sys.file.config) :
      (DataServer.served sys.file.config sys.served sys.engine).aliases.lookup path = none := by
    refine Option.eq_none_iff_forall_ne_some.mpr fun name found => ?_
    rcases reaches_cons.mp ((next.aliases path name).mp found) with ⟨pull, had, alias'⟩ | ⟨⟨-, fresh⟩, -⟩
    · have paths := sys.file.loads.paths
      rw [Loaded.paths, ← sys.file.pulls_paths, ← sys.file.webhooks_paths] at paths
      exact (List.nodup_append.mp paths).2.2 path (List.mem_flatMap.mpr ⟨_, sys.file.pull_eq_some.mp had, alias'⟩) path mem rfl
    · exact fresh (sys.file.mem_paths.mpr (.inr mem))
  have rebuilt : sys.rebuild c ingest = { sys with
      served := DataServer.served sys.file.config sys.served sys.engine
      router := some {
        routes := routesOf c server sys.engine ingest sys.file (DataServer.served sys.file.config sys.served sys.engine)
        auth := (DataServer.served sys.file.config sys.served sys.engine).auth } } := by
    unfold rebuild
    rw [serves]
    dsimp only
    rw [router_eq c server sys.engine ingest sys.file literal apart]
  rw [rebuilt]
  refine { instances, sourced, config, right := next, routed := ⟨_, _, rfl, ?_⟩ }
  refine { routes := ⟨server, ingest, serves, rfl⟩, apart, sources := fun bot mem => ?_, names := fun name id found => ?_,
           current := fun _ _ => ⟨rfl, fun _ => rfl⟩ }
  · have configured : bot.name ∈ sys.engine.state.config.bots.map (·.name) := by
      rw [config]
      exact List.mem_map.mpr ⟨bot.forEngine, List.mem_map_of_mem mem, rfl⟩
    rw [Shared.sourceId, Option.isSome_map]
    exact (sourced.sourceNamed_isSome bot.name).mpr configured
  · obtain ⟨info, known, rfl⟩ := Option.map_eq_some_iff.mp found
    obtain ⟨there, rfl⟩ := sourced.of_sourceNamed known
    exact (sourced.id there).2

theorem engine_inv {sys : System u m IpNet} {builds : List (Build u m IpNet)} (h : Inv c sys builds) {control : Control}
    (live : ∀ new, control ≠ .apply new) : Inv c { sys with engine := sys.engine.control control } builds := by
  obtain ⟨config, ids⟩ := control_config h.sourced live
  obtain ⟨sourced, next⟩ := Engine.control_sourced sys.engine control h.sourced
  obtain ⟨last, earlier, rfl, routed⟩ := h.routed
  exact {
    instances := Engine.control_instances sys.engine control h.instances
    sourced
    config := config.trans h.config
    right := h.right
    routed := ⟨last, earlier, rfl, {
      routes := routed.routes
      apart := routed.apart
      sources := routed.sources
      names := fun name id found => next.named (routed.names name id found)
      current := fun settled serves =>
        ⟨(routed.current settled serves).1, fun name => (ids name).trans ((routed.current settled serves).2 name)⟩ }⟩ }

theorem reload_inv {sys : System u m IpNet} {builds : List (Build u m IpNet)} (h : Inv c sys builds) (file : File u m IpNet) :
    Inv c (sys.step c (.reload file)) builds := by
  simp only [step]
  split
  · exact h
  · obtain ⟨sourced, next⟩ := Engine.control_sourced sys.engine (.apply (file.forEngine c)) h.sourced
    have instances := Engine.control_instances sys.engine (.apply (file.forEngine c)) h.instances
    rcases Shared.apply_spec h.instances (file.forEngine c) with ⟨error, rejected⟩ | ⟨⟨generation, applied⟩, spec⟩
    · rw [rejected]
      exact h
    · simp only [Shared.control] at sourced next instances
      rw [← Prod.mk.eta (p := sys.engine.apply (file.forEngine c)), applied]
      obtain ⟨last, earlier, rfl, routed⟩ := h.routed
      exact {
        instances
        sourced
        config := spec.config
        right := h.right
        routed := ⟨last, earlier, rfl, {
          routes := routed.routes
          apart := routed.apart
          sources := routed.sources
          names := fun name id found => next.named (routed.names name id found)
          current := fun settled => absurd settled Bool.noConfusion }⟩ }

theorem step_inv {sys : System u m IpNet} {builds : List (Build u m IpNet)} (h : Inv c sys builds) (action : Action u m IpNet) :
    Inv c (sys.step c action) ((sys.built action).toList ++ builds) := by
  cases action with
  | engine control =>
    cases control with
    | apply new => exact h
    | retire slot drain => exact engine_inv h fun _ => Control.noConfusion
    | setRuntimeEndpoint consumer source token endpoint => exact engine_inv h fun _ => Control.noConfusion
    | setUsername source username => exact engine_inv h fun _ => Control.noConfusion
  | reload file => exact reload_inv h file
  | rebuild ingest =>
    cases serves : sys.file.config.server with
    | none =>
      simp only [step, built, rebuild, serves]
      obtain ⟨last, earlier, rfl, routed⟩ := h.routed
      exact { h with
        routed := ⟨last, earlier, rfl, { routed with current := fun _ some => absurd some (by rw [serves]; exact Bool.noConfusion) }⟩ }
    | some server =>
      simp only [step, built, serves]
      exact rebuild_inv _ h.instances h.sourced h.config h.right serves ingest false

@[simp] theorem rebuild_file (sys : System u m IpNet) (ingest : Str → Nat) : (sys.rebuild c ingest).file = sys.file := by
  unfold rebuild
  cases sys.file.config.server <;> rfl

@[simp] theorem rebuild_engine (sys : System u m IpNet) (ingest : Str → Nat) : (sys.rebuild c ingest).engine = sys.engine := by
  unfold rebuild
  cases sys.file.config.server <;> rfl

@[simp] theorem new_file (engine : Shared m) (file : File u m IpNet) (ingest : Str → Nat) : (new c engine file ingest).file = file :=
  rebuild_file ..

@[simp] theorem new_engine (engine : Shared m) (file : File u m IpNet) (ingest : Str → Nat) : (new c engine file ingest).engine = engine :=
  rebuild_engine ..

section
variable {engine : Shared m} {file : File u m IpNet} {tokenKeys : Str → Nat}

theorem new_inv (made : Shared.new (file.forEngine c) tokenKeys = .ok engine) (serves : file.config.server.isSome) (ingest : Str → Nat) :
    Inv c (new c engine file ingest) [{ file, engine }] := by
  obtain ⟨server, serves⟩ := Option.isSome_iff_exists.mp serves
  have right : ({ auth := ∅, aliases := ∅ } : Served).Right ([] : List (Build u m IpNet)) := {
    auth := fun name token => by
      rw [AList.lookup_empty]
      exact iff_of_false (Option.some_ne_none _).symm fun h => h.elim fun _ served => servedAs_nil served.1
    aliases := fun path name => by
      rw [AList.lookup_empty]
      exact iff_of_false (Option.some_ne_none _).symm reaches_nil }
  have started := rebuild_inv { engine, file, reloading := false, served := { auth := ∅, aliases := ∅ }, router := none }
    (Engine.run_instances made []) (Engine.new_sourced made) (Engine.new_spec made).1 right serves ingest false
  have same : new c engine file ingest = { new c engine file ingest with reloading := false } := by
    unfold new rebuild
    rw [serves]
  rw [same]
  exact started

theorem run_inv (made : Shared.new (file.forEngine c) tokenKeys = .ok engine) (serves : file.config.server.isSome) (ingest : Str → Nat)
    (actions : List (Action u m IpNet)) :
    Inv c ((new c engine file ingest).run c actions) ((new c engine file ingest).builds c actions) := by
  induction actions using List.reverseRecOn with
  | nil =>
    have start := new_inv made serves ingest
    rw [builds, run, List.foldl_nil, List.foldl_nil, new_file, new_engine]
    exact start
  | append_singleton actions action ih =>
    obtain ⟨run, builds⟩ := run_concat (c := c) (new c engine file ingest) actions action
    rw [run, builds]
    exact step_inv ih action

/-! ### What a path reaches -/

theorem mem_routesOf {sys : System u m IpNet} {last : Build u m IpNet} (h : sys.Routed c last) {server : Loaded.Server IpNet}
    {ingest : Str → Nat} {path : Str} {route : Route IpNet} : (routesOf c server last.engine ingest last.file sys.served).lookup path = some route ↔
      (∃ bot ∈ last.file.config.bots, hookRoute c server last.engine ingest bot = some (path, route)) ∨
        ∃ name, sys.served.aliases.lookup path = some name ∧ route = .pull name := by
  rw [lookup_iff (routesOf_nodup c server last.engine ingest last.file h.apart), routesOf, List.mem_append, List.mem_filterMap,
    List.mem_map]
  refine or_congr_right ⟨?_, ?_⟩
  · rintro ⟨⟨path', name⟩, mem, eq⟩
    cases eq
    exact ⟨name, AList.mem_lookup_iff.mpr mem, rfl⟩
  · rintro ⟨name, found, rfl⟩
    exact ⟨⟨path, name⟩, AList.mem_lookup_iff.mp found, rfl⟩

theorem hookRoute_eq_some {server : Loaded.Server IpNet} {engine : Shared m} {ingest : Str → Nat} {bot : Loaded.Bot u IpNet} {path : Str}
    {route : Route IpNet} : hookRoute c server engine ingest bot = some (path, route) ↔ ∃ hook id, bot.ingress = some (.webhook hook) ∧
      engine.sourceId bot.name = some id ∧ hook.path = path ∧ route = .webhook (ingressOf c server ingest bot hook id) := by
  unfold hookRoute
  simp only [Option.bind_eq_some_iff, Option.map_eq_some_iff, hookOf_eq_some, Prod.mk.injEq]
  constructor
  · rintro ⟨hook, given, id, found, at', eq⟩
    exact ⟨hook, id, given, found, at', eq.symm⟩
  · rintro ⟨hook, id, given, found, at', eq⟩
    exact ⟨hook, given, id, found, at', eq.symm⟩

end

end System

section
variable {c : Crates u} {engine : Shared m} {file : File u m IpNet} {tokenKeys : Str → Nat}

/-- Over any run, building the routes never panics. An alias reaches the pull consumer of the last file that had it, while the consumer drains
    and no newer file has another use for the path. A webhook's path reaches its bot, with the id that is the bot's for good. -/
theorem routes_run (made : Shared.new (file.forEngine c) tokenKeys = .ok engine) (serves : file.config.server.isSome) (ingest : Str → Nat)
    (actions : List (Action u m IpNet)) :
    let now := (System.new c engine file ingest).run c actions
    let builds := (System.new c engine file ingest).builds c actions
    ∃ router last, now.router = some router ∧ builds.head? = some last ∧
      (∀ path name, router.routes.lookup path = some (.pull name) ↔ Reaches builds path name) ∧
      (∀ bot ∈ last.file.config.bots, ∀ hook, bot.ingress = some (.webhook hook) →
        ∃ ingress, router.routes.lookup hook.path = some (.webhook ingress)) ∧
      (∀ path ingress, router.routes.lookup path = some (.webhook ingress) → ∃ bot ∈ last.file.config.bots, ∃ hook,
        bot.ingress = some (.webhook hook) ∧ hook.path = path ∧ ingress.secret = webhookSecret c bot hook ∧
        ingress.allowlist = allowlist hook.ipAllowlist ∧ now.engine.state.sourceNames[ingress.id.toNat]? = some bot.name ∧
        (now.reloading = false → now.file.config.server.isSome → now.engine.sourceId bot.name = some ingress.id)) ∧
      (now.reloading = false → now.file.config.server.isSome → last.file = now.file) := by
  intro now builds
  have inv : System.Inv c now builds := System.run_inv made serves ingest actions
  obtain ⟨last, earlier, eq, routed⟩ := inv.routed
  obtain ⟨server, ingest', -, built⟩ := routed.routes
  refine ⟨_, last, built, by rw [eq]; rfl, fun path name => ?_, fun bot mem hook given => ?_, fun path ingress found => ?_,
    fun settled plane => (routed.current settled plane).1⟩
  · dsimp only
    rw [System.mem_routesOf routed, ← inv.right.aliases]
    simp only [System.hookRoute_eq_some, reduceCtorEq, and_false, exists_false, false_or, Route.pull.injEq, exists_eq_right']
  · obtain ⟨id, found⟩ := Option.isSome_iff_exists.mp (routed.sources bot mem)
    exact ⟨_, (System.mem_routesOf routed).mpr (.inl ⟨bot, mem, System.hookRoute_eq_some.mpr ⟨hook, id, given, found, rfl, rfl⟩⟩)⟩
  · rcases (System.mem_routesOf routed).mp found with ⟨bot, mem, route⟩ | ⟨name, -, other⟩
    · obtain ⟨hook, id, given, known, at', eq⟩ := System.hookRoute_eq_some.mp route
      cases eq
      exact ⟨bot, mem, hook, given, at', rfl, rfl, routed.names bot.name id known,
        fun settled plane => ((routed.current settled plane).2 bot.name).trans known⟩
    · cases other

end

/-! ### Polls -/

/-- A header that carries the token. -/
def Bears (authorization : Option Str) (token : Str) : Prop :=
  token ≠ [] ∧ ∃ scheme, authorization = some (scheme ++ token) ∧ Str.eqIgnoreAsciiCase scheme (utf8 "bearer ") = true

theorem bearerMatches_iff {authorization : Option Str} {token : Str} :
    bearerMatches authorization token = true ↔ Bears authorization token := by
  unfold bearerMatches Bears
  cases authorization with
  | none => simp
  | some value =>
    simp only [Bool.and_eq_true, decide_eq_true_eq, Webhook.secretEq_iff, Option.some.injEq]
    constructor
    · rintro ⟨⟨longer, scheme⟩, rfl⟩
      refine ⟨fun empty => ?_, value.take (utf8 "bearer ").length, (List.take_append_drop _ _).symm, scheme⟩
      rw [List.drop_eq_nil_iff] at empty
      exact Nat.not_lt.mpr empty longer
    · rintro ⟨some', scheme, rfl, same⟩
      have length : scheme.length = (utf8 "bearer ").length := by
        have := congrArg List.length (of_decide_eq_true same)
        simpa [Str.toAsciiLowercase] using this
      refine ⟨⟨?_, ?_⟩, ?_⟩
      · rw [← length, List.length_append]
        exact Nat.lt_add_of_pos_right (List.length_pos_of_ne_nil some')
      · rwa [← length, List.take_left]
      · rw [← length, List.drop_left]

theorem consumerSegment_eq {path segment : Str} (h : consumerSegment path = some segment) :
    path = utf8 "/c" ++ slash :: (segment ++ slash :: utf8 "getUpdates") := by
  have joined : List.intercalate [slash] (path.splitOn slash) = path := List.intercalate_splitOn slash
  unfold consumerSegment at h
  split at h
  · rename_i start consumer method eq
    split at h
    · rename_i written
      obtain ⟨rfl, -, rfl⟩ := written
      cases h
      rw [← joined, eq]
      simp only [List.intercalate_cons_cons, List.intercalate_singleton, List.nil_append, List.append_assoc, List.singleton_append]
      rfl
    · cases h
  · cases h

/-- A path that a file takes is none of `/c/<consumer>/getUpdates`. -/
theorem consumerSegment_of_routable {w : World u} {path : Str} (h : Routable w path) : consumerSegment path = none := by
  refine Option.eq_none_iff_forall_ne_some.mpr fun segment found => ?_
  exact (h.notReserved (utf8 "/c") (List.mem_map.mpr ⟨"/c", by decide, rfl⟩)).2 _ (consumerSegment_eq found)

theorem Reaches.routable {builds : List (Build u m IpNet)} {path name : Str} (h : Reaches builds path name) :
    ∃ w : World u, Routable w path := by
  obtain ⟨later, build, earlier, pull, -, had, serves, -⟩ := h
  exact ⟨_, build.file.loads.routable path (build.file.mem_paths.mpr (.inl ⟨_, build.file.pull_eq_some.mp had, serves⟩))⟩

/-- The path is the consumer's own, or an alias of it. -/
def PolledAt (builds : List (Build u m IpNet)) (path name : Str) : Prop :=
  Reaches builds path name ∨ ∃ segment, consumerSegment path = some segment ∧ fromUtf8 (percentDecode segment) = some name

theorem getUpdates_eq_poll {router : Router IpNet} {engine : Shared m} {name : Str} {request : Request} {slot : Nat} :
    router.getUpdates engine name request = .poll slot ↔ (∃ token, router.auth.lookup name = some token ∧
      ∀ expected, token = some expected → Bears request.authorization expected) ∧ engine.pullConsumer name = some slot := by
  unfold Router.getUpdates
  simp only [← bearerMatches_iff]
  cases router.auth.lookup name with
  | none => simp
  | some token =>
    cases token with
    | none => cases engine.pullConsumer name <;> simp
    | some expected =>
      by_cases bears : bearerMatches request.authorization expected = true <;> cases engine.pullConsumer name <;> simp [bears]

section
variable {c : Crates u} {engine : Shared m} {file : File u m IpNet} {tokenKeys : Str → Nat}

/-- Over any run, who may poll: a request of a path that reaches a pull consumer, with the token that the last file that had the consumer
    gives it; it polls an open instance of that name. -/
theorem polls_run (made : Shared.new (file.forEngine c) tokenKeys = .ok engine) (serves : file.config.server.isSome) (ingest : Str → Nat)
    (actions : List (Action u m IpNet)) :
    let now := (System.new c engine file ingest).run c actions
    let builds := (System.new c engine file ingest).builds c actions
    (∃ router, now.router = some router ∧ ∀ request slot, router.respond now.engine request = .poll slot ↔
      request.loops = false ∧ request.polls = true ∧ ∃ name pull, PolledAt builds request.path name ∧ ServedAs builds name pull ∧
        (∀ token, pull.authToken = some token → Bears request.authorization token) ∧ now.engine.pullConsumer name = some slot) ∧
    ∀ name slot, now.engine.pullConsumer name = some slot → now.engine.Serving name slot ∧ (now.engine.slots slot).mode = .pull := by
  intro now builds
  have inv : System.Inv c now builds := System.run_inv made serves ingest actions
  obtain ⟨last, earlier, eq, routed⟩ := inv.routed
  obtain ⟨server, ingest', -, built⟩ := routed.routes
  refine ⟨⟨_, built, fun request slot => ?_⟩, fun name slot => Shared.of_pullConsumer inv.instances⟩
  -- What a poll of a consumer needs, once its path is told.
  have polls (name : Str) :
      ({ routes := routesOf c server last.engine ingest' last.file now.served, auth := now.served.auth } : Router IpNet).getUpdates
        now.engine name request = .poll slot ↔ ∃ pull, ServedAs builds name pull ∧
        (∀ token, pull.authToken = some token → Bears request.authorization token) ∧ now.engine.pullConsumer name = some slot := by
    rw [getUpdates_eq_poll]
    simp only [inv.right.auth]
    constructor
    · rintro ⟨⟨_, ⟨pull, served, rfl⟩, bears⟩, found⟩
      exact ⟨pull, served, bears, found⟩
    · rintro ⟨pull, served, bears, found⟩
      exact ⟨⟨_, ⟨pull, served, rfl⟩, bears⟩, found⟩
  unfold Router.respond
  cases request.loops with
  | true => simp
  | false =>
    rw [if_neg Bool.false_ne_true]
    dsimp only
    have aliased (name : Str) : Reaches builds request.path name ↔
        (routesOf c server last.engine ingest' last.file now.served).lookup request.path = some (.pull name) := by
      rw [System.mem_routesOf routed, ← inv.right.aliases]
      simp only [System.hookRoute_eq_some, reduceCtorEq, and_false, exists_false, false_or, Route.pull.injEq, exists_eq_right']
    cases found : (routesOf c server last.engine ingest' last.file now.served).lookup request.path with
    | none =>
      simp only [PolledAt, aliased, found, reduceCtorEq, false_or]
      cases consumerSegment request.path with
      | none => simp
      | some segment =>
        simp only [Option.some.injEq, exists_eq_left', true_and]
        cases polled : request.polls with
        | false => simp
        | true =>
          cases decoded : fromUtf8 (percentDecode segment) with
          | none => simp
          | some name => simpa [decoded] using polls name
    | some route =>
      cases route with
      | webhook ingress =>
        -- The path is a webhook's, which a file gives.
        have unpolled (name : Str) : ¬PolledAt builds request.path name := by
          rcases (System.mem_routesOf routed).mp found with ⟨bot, mem, route⟩ | ⟨name, -, other⟩
          · have path : request.path ∈ webhooks last.file.config :=
              List.mem_filterMap.mpr ⟨bot, mem, hookRoute_path c server last.engine ingest' route⟩
            have routable := last.file.loads.routable request.path (last.file.mem_paths.mpr (.inr path))
            rintro (reaches | ⟨segment, own, -⟩)
            · rw [aliased, found] at reaches
              cases reaches
            · rw [consumerSegment_of_routable routable] at own
              cases own
          · cases other
        refine iff_of_false ?_ fun h => h.2.2.elim fun name h => h.elim fun pull h => unpolled name h.1
        exact fun same => by cases same
      | pull name =>
        have reaches : Reaches builds request.path name := (aliased name).mpr found
        have only (other : Str) : PolledAt builds request.path other ↔ name = other := by
          constructor
          · rintro (reaches' | ⟨segment, own, -⟩)
            · rw [aliased, found] at reaches'
              cases reaches'
              rfl
            · obtain ⟨w, routable⟩ := reaches.routable
              rw [consumerSegment_of_routable routable] at own
              cases own
          · rintro rfl
            exact .inl reaches
        simp only [only, true_and]
        cases polled : request.polls with
        | false => simp
        | true =>
          simp only [if_true, polls, true_and]
          constructor
          · rintro ⟨pull, rest⟩
            exact ⟨name, pull, rfl, rest⟩
          · rintro ⟨_, pull, rfl, rest⟩
            exact ⟨pull, rest⟩

end

/-! ### What drains -/

namespace System
variable {c : Crates u}

/-- Every pull instance that drains is served. -/
def Drains (sys : System u m IpNet) (builds : List (Build u m IpNet)) : Prop :=
  ∀ slot ∈ sys.engine.retired, (sys.engine.slots slot).mode = .pull → ∃ pull, ServedAs builds (sys.engine.slots slot).name pull

/-- The pull consumers that the engine has are those of the file. -/
theorem pull_of_target {sys : System u m IpNet} {builds : List (Build u m IpNet)} (h : Inv c sys builds) {t : Engine.Target}
    (mem : t ∈ sys.engine.state.targets) (pull : (sys.engine.slots t.slot).mode = .pull) :
    ∃ pull, sys.file.pull (sys.engine.slots t.slot).name = some pull := by
  obtain ⟨consumer, hc, -, name, mode⟩ := (Engine.forall₂_exists h.instances.matched).1 t mem
  rw [h.config] at hc
  obtain ⟨loaded, written, rfl⟩ := List.mem_map.mp hc
  cases kind : loaded.kind with
  | pull given =>
    exact ⟨given, sys.file.pull_eq_some.mpr (List.mem_filterMap.mpr ⟨loaded, written, pullOf_eq_some.mpr ⟨kind, name.symm⟩⟩)⟩
  | push given =>
    rw [pull] at mode
    simp [Loaded.Consumer.forEngine, Loaded.ConsumerKind.forEngine, kind, Engine.mode] at mode

theorem control_drains {sys : System u m IpNet} {builds : List (Build u m IpNet)} (h : sys.Drains builds) {control : Control}
    (live : ∀ new, control ≠ .apply new) : Drains { sys with engine := sys.engine.control control } builds := by
  intro slot mem pull
  obtain ⟨before, name, mode⟩ := Shared.control_retired sys.engine live slot mem
  have served := h slot before (mode ▸ pull)
  rwa [← name] at served

theorem step_drains {sys : System u m IpNet} {builds : List (Build u m IpNet)} (inv : Inv c sys builds) (h : sys.Drains builds)
    (plane : sys.file.config.server.isSome) (action : Action u m IpNet) :
    Drains (sys.step c action) ((sys.built action).toList ++ builds) := by
  cases action with
  | engine control =>
    cases control with
    | apply new => exact h
    | retire slot drain => exact control_drains h fun _ => Control.noConfusion
    | setRuntimeEndpoint consumer source token endpoint => exact control_drains h fun _ => Control.noConfusion
    | setUsername source username => exact control_drains h fun _ => Control.noConfusion
  | reload file =>
    simp only [step, built, Option.toList_none, List.nil_append]
    split
    · exact h
    · rename_i settled
      rcases Shared.apply_spec inv.instances (file.forEngine c) with ⟨error, rejected⟩ | ⟨⟨generation, applied⟩, spec⟩
      · rw [rejected]
        exact h
      · rw [← Prod.mk.eta (p := sys.engine.apply (file.forEngine c)), applied]
        intro slot mem pull
        obtain ⟨below, was⟩ := spec.draining slot mem
        have kept := spec.kept slot below
        dsimp only at pull ⊢
        rw [kept.mode] at pull
        rw [kept.name]
        rcases was with ⟨before, -⟩ | ⟨⟨t, current, rfl⟩, -⟩
        · exact h slot before pull
        · -- It was current, and its consumer is in the file that the routes are of.
          obtain ⟨last, earlier, rfl, routed⟩ := inv.routed
          obtain ⟨given, had⟩ := pull_of_target inv current pull
          rw [← (routed.current (Bool.eq_false_iff.mpr settled) plane).1] at had
          exact ⟨given, servedAs_cons.mpr (.inl had)⟩
  | rebuild ingest =>
    obtain ⟨server, serves⟩ := Option.isSome_iff_exists.mp plane
    simp only [step, built, rebuild, serves]
    intro slot mem pull
    obtain ⟨given, served⟩ := h slot mem pull
    cases had : sys.file.pull (sys.engine.slots slot).name with
    | some pull => exact ⟨pull, servedAs_cons.mpr (.inl had)⟩
    | none =>
      have holds : (sys.engine.pullConsumer (sys.engine.slots slot).name).isSome := Shared.pullConsumer_of_retired mem pull
      exact ⟨given, servedAs_cons.mpr (.inr ⟨⟨had, holds⟩, served⟩)⟩

theorem run_plane {sys : System u m IpNet} {actions : List (Action u m IpNet)} (start : sys.file.config.server.isSome)
    (plane : ∀ file, .reload file ∈ actions → file.config.server.isSome) : (sys.run c actions).file.config.server.isSome := by
  induction actions generalizing sys with
  | nil => exact start
  | cons action actions ih =>
    refine ih ?_ fun file mem => plane file (List.mem_cons_of_mem _ mem)
    cases action with
    | engine control => cases control <;> exact start
    | reload file =>
      simp only [step]
      split
      · exact start
      · split
        · exact start
        · exact plane file List.mem_cons_self
    | rebuild ingest =>
      simp only [step, rebuild]
      split <;> exact start

end System

section
open Config (load loads_of_ok hereWorld twoBots namedBot jobs)
open Gateway.GatewayPath (standardUrls)

/-- A file that is accepted. -/
def File.of (raw : Config.Raw.RawConfig Unit) (h : (load hereWorld (fun _ : RuleError literal => []) raw).toBool = true) :
    File standardUrls literal Unit :=
  match eq : load hereWorld (fun _ : RuleError literal => []) raw with
  | .ok out => { world := hereWorld, raw, config := out.config, loads := (loads_of_ok eq).1 }
  | .error _ => absurd h (by rw [eq]; exact Bool.noConfusion)

/-- Bot `a` sends its updates to `jobs`, which is polled with a token; bot `b` has a webhook. -/
def polled : Config.Raw.RawConfig Unit := { twoBots with
  bots := [namedBot "a" "1:a" [{ match' := none, to' := [.new (.consumer (utf8 "jobs"))] }],
    { namedBot "b" "2:b" [] with ingress := some (.new (.webhook {
        path := some (.new (utf8 "/hook")), publicUrl := none, register := .new false, secretToken := .auto, allowedUpdates := none
        maxConnections := none, dropPendingUpdates := false, ipAddress := none, certificateFile := none, ipAllowlist := .new .none })) }]
  consumers := { entries := [(utf8 "jobs", .new (.pull { jobs with authToken := some (.new (utf8 "letmein-please")) }))], keys := List.nodup_singleton _ } }

/-- Bot `a` alone, without consumers. -/
def dropped : Config.Raw.RawConfig Unit := { twoBots with
  bots := [namedBot "a" "1:a" []], consumers := { entries := [], keys := List.nodup_nil } }

def polledFile : File standardUrls literal Unit := .of polled (by decide +kernel)

def droppedFile : File standardUrls literal Unit := .of dropped (by decide +kernel)

def plainCrates : Crates standardUrls where
  derive token := token
  text url := url.text

def polledEngine : Shared literal := (Shared.new (polledFile.forEngine plainCrates) List.length).toOption.get (by decide +kernel)

theorem polledEngine_made : Shared.new (polledFile.forEngine plainCrates) List.length = .ok polledEngine := by
  have made : (Shared.new (polledFile.forEngine plainCrates) List.length).toOption = some polledEngine := (Option.some_get _).symm
  cases eq : (Shared.new (polledFile.forEngine plainCrates) List.length : Except (Engine.BuildError literal) (Shared literal)) with
  | ok engine =>
    rw [eq] at made
    exact congrArg _ (Option.some.inj made)
  | error error =>
    rw [eq] at made
    cases made

def started : System standardUrls literal Unit := System.new plainCrates polledEngine polledFile fun _ => 0

/-- A file drops the consumer and bot `b`. -/
def dropping : List (Action standardUrls literal Unit) := [.reload droppedFile, .rebuild fun _ => 0]

/-- The pull consumer a route serves. -/
def Route.consumer : Route IpNet → Option Str
  | .pull name => some name
  | .webhook _ => none

theorem routes_run_dropped : Reaches (started.builds plainCrates dropping) (utf8 "/jobs") (utf8 "jobs") := by
  obtain ⟨router, last, built, -, aliases, -⟩ := routes_run polledEngine_made (by decide +kernel) (fun _ => 0) dropping
  refine (aliases _ _).mp ?_
  have still : ((started.run plainCrates dropping).router.bind fun router =>
      (router.routes.lookup (utf8 "/jobs")).bind Route.consumer) = some (utf8 "jobs") := by decide +kernel
  rw [show (started.run plainCrates dropping).router = some router from built, Option.bind_some] at still
  obtain ⟨route, found, named⟩ := Option.bind_eq_some_iff.mp still
  cases route with
  | pull name => rw [found, Option.some.inj named]
  | webhook ingress => cases named

/-- A poll of the dropped consumer, with its token. -/
def polling : Request where
  path := utf8 "/c/jobs/getUpdates"
  loops := false
  polls := true
  authorization := some (utf8 "Bearer letmein-please")

theorem polls_run_dropped : ∃ name pull, ServedAs (started.builds plainCrates dropping) name pull ∧
    (started.run plainCrates dropping).engine.Serving name 0 := by
  obtain ⟨⟨router, built, polls⟩, serving⟩ := polls_run polledEngine_made (by decide +kernel) (fun _ => 0) dropping
  have polled : ((started.run plainCrates dropping).router.any fun router =>
      match router.respond (started.run plainCrates dropping).engine polling with
      | .poll slot => slot = 0
      | _ => false) = true := by decide +kernel
  rw [show (started.run plainCrates dropping).router = some router from built, Option.any_some] at polled
  split at polled
  · rename_i slot answer
    obtain rfl := of_decide_eq_true polled
    obtain ⟨-, -, name, pull, -, served, -, found⟩ := (polls polling 0).mp answer
    exact ⟨name, pull, served, (serving name 0 found).1⟩
  · cases polled

end

end Tgin.DataServer
