import ExactAlgebra.Session.Registration
import ExactAlgebra.Proofs.Computation
import Mathlib

/-! Settings that are overridden for a while. Settings are changed in place, one after another, and what
they were is kept; however the body ends, they are put back. Bodies may change settings themselves, override
others and call entry points, which open a block of the deadline and keep operands immutable. -/
namespace ExactAlgebra
open Deadline

/-- What a body works on: a session, and the guard of its deadline. -/
structure Workspace where
  session : Session
  guard : Guard

/-- A piece of a program. It may fail at any point; what it did until then stays done. -/
abbrev Body := ExceptT Fault (StateM Workspace)

/-- Names of settings, each with a value for it. No name comes twice. -/
structure Overrides where
  values : List (String × Datum)
  distinct : (values.map (·.1)).Nodup

def Overrides.names (overrides : Overrides) : List String := overrides.values.map (·.1)

/-- What has come of changing settings one after another: what those that were changed had been, the
fault that put an end to it, if any, and the session by then. -/
structure Changes where
  saved : List (String × Datum)
  fault : Option Fault
  session : Session

namespace Session

/-- Changes settings one after another, up to the first that is unknown. -/
def change (session : Session) : List (String × Datum) → Changes
  | [] => ⟨[], none, session⟩
  | (name, value) :: values =>
    match session.settings.lookup name, session.assign name value with
    | .ok previous, .ok changed =>
      let changes := changed.change values
      { changes with saved := (name, previous) :: changes.saved }
    | .error fault, _ | .ok _, .error fault => ⟨[], some fault, session⟩

def putBack (session : Session) (saved : List (String × Datum)) : Session :=
  saved.foldl (fun session (name, previous) =>
    match session.assign name previous with
    | .ok changed => changed
    | .error _ => session) session

end Session

namespace Body
variable {α β : Type}

/-- Changes one setting and returns what it was. -/
def assign (name : String) (value : Datum) : Body Datum := fun world =>
  match world.session.settings.lookup name, world.session.assign name value with
  | .ok previous, .ok changed => (.ok previous, { world with session := changed })
  | .error fault, _ | .ok _, .error fault => (.error fault, world)

/-- Runs a body with settings overridden. The session goes by the name `self`, which is no setting of
a scope. -/
def overriding (overrides : Overrides) (body : Body α) : Body α := fun world =>
  if (overrides.values.lookup "self").isSome then (.error .unsupported, world)
  else
    let changes := world.session.change overrides.values
    let inside := { world with session := changes.session }
    let ending : Except Fault α × Workspace :=
      match changes.fault with
      | some fault => (.error fault, inside)
      | none => body inside
    (ending.1, { ending.2 with session := ending.2.session.putBack changes.saved })

/-- Runs a body as a block of the deadline. -/
def timed (now : Rat) (body : Body α) : Body α := fun world =>
  match world.guard.enter (world.session.settings.get .timeoutMs) now with
  | .error fault => (.error fault, world)
  | .ok guard =>
    let ending := body { world with guard := guard }
    (ending.1, { ending.2 with guard := ending.2.guard.exit })

def keepingOperands : Overrides := ⟨[("immutable", .flag true)], List.nodup_singleton _⟩

/-- Runs a body as an entry point: in a block of the deadline, with operands immutable. -/
def entryPoint (now : Rat) (body : Body α) : Body α := fun world =>
  if world.session.settings.chosen .immutable then timed now body world
  else overriding keepingOperands (timed now body) world

/-- Outside of nested scopes, the body changes no other settings than these. -/
inductive AssignsOnly : (Setting → Prop) → {α : Type} → Body α → Prop
  | other {direct : Setting → Prop} {α : Type} {body : Body α}
    (keeps : ∀ world, (body world).2.session.settings = world.session.settings) : AssignsOnly direct body
  | assign {direct : Setting → Prop} {name : String} {value : Datum}
    (known : ∀ setting, Setting.ofName name = .ok setting → direct setting) :
    AssignsOnly direct (assign name value)
  | bind {direct : Setting → Prop} {α β : Type} {body : Body α} {next : α → Body β}
    (first : AssignsOnly direct body) (later : ∀ a, AssignsOnly direct (next a)) :
    AssignsOnly direct (body >>= next)
  | tryCatch {direct : Setting → Prop} {α : Type} {body : Body α} {handler : Fault → Body α}
    (first : AssignsOnly direct body) (later : ∀ fault, AssignsOnly direct (handler fault)) :
    AssignsOnly direct (tryCatch body handler)
  | overriding {direct : Setting → Prop} {overrides : Overrides} {α : Type} {body : Body α}
    (inside : AssignsOnly (fun setting => direct setting ∨ setting.name ∈ overrides.names) body) :
    AssignsOnly direct (overriding overrides body)
  | entryPoint {direct : Setting → Prop} {now : Rat} {α : Type} {body : Body α}
    (inside : AssignsOnly direct body) : AssignsOnly direct (entryPoint now body)

end Body

namespace Setting

theorem ofName_name (setting : Setting) : ofName setting.name = .ok setting := by
  cases setting <;> rfl

theorem ofName_cases (name : String) :
    (∃ setting : Setting, setting.name = name) ∨ ofName name = .error (.unknownSetting name) := by
  unfold ofName
  cases found : all.find? (·.name == name) with
  | none => exact .inr rfl
  | some setting => exact .inl ⟨setting, by simpa using List.find?_some found⟩

theorem name_injective {a b : Setting} (same : a.name = b.name) : a = b := by
  have known := ofName_name a
  rw [same, ofName_name b] at known
  exact (Except.ok.inj known).symm

end Setting

namespace Session

variable {before session : Session}

def withValues (session : Session) (settings : Settings) : Session := { session with settings := settings }

theorem assign_known (session : Session) (setting : Setting) (value : Datum) :
    session.assign setting.name value = .ok (session.withValues (session.settings.set setting value)) := by
  unfold assign Settings.assign
  rw [Setting.ofName_name]
  rfl

theorem lookup_known (settings : Settings) (setting : Setting) :
    settings.lookup setting.name = .ok (settings.get setting) := by
  unfold Settings.lookup
  rw [Setting.ofName_name]
  rfl

/-- Some settings, by their names, are as they are here; the others are as they are there. -/
structure Mixes (names : List String) (here there result : Settings) : Prop where
  named : ∀ setting : Setting, setting.name ∈ names → result.get setting = here.get setting
  others : ∀ setting : Setting, setting.name ∉ names → result.get setting = there.get setting

theorem Mixes.cons {names : List String} {here there result : Settings} {first : Setting}
    (mixes : Mixes names here (there.set first (here.get first)) result) :
    Mixes (first.name :: names) here there result where
  named setting member := by
    by_cases later : setting.name ∈ names
    · exact mixes.named setting later
    · rcases List.mem_cons.mp member with same | later'
      · rw [mixes.others setting later, Setting.name_injective same]
        exact if_pos rfl
      · exact absurd later' later
  others setting absent := by
    rw [mixes.others setting fun later => absent (List.mem_cons_of_mem _ later)]
    exact if_neg fun same : setting = first => absent (same ▸ List.mem_cons_self)

theorem Mixes.skip {names : List String} {here there result : Settings} {name : String}
    (mixes : Mixes names here there result) (unknown : ∀ setting : Setting, setting.name ≠ name) :
    Mixes (name :: names) here there result where
  named setting member := mixes.named setting
    ((List.mem_cons.mp member).resolve_left (unknown setting))
  others setting absent := mixes.others setting fun later => absent (List.mem_cons_of_mem _ later)

theorem Mixes.unique {names : List String} {here there a b : Settings} (mixesA : Mixes names here there a)
    (mixesB : Mixes names here there b) : a = b := by
  apply congrArg Settings.mk
  funext setting
  by_cases member : setting.name ∈ names
  · rw [mixesA.named setting member, mixesB.named setting member]
  · rw [mixesA.others setting member, mixesB.others setting member]

theorem mixes_restore (after before : Settings) (names : List String) :
    Mixes names before after (after.restore before names) := by
  unfold Settings.restore
  induction names generalizing after with
  | nil => exact ⟨nofun, fun _ _ => rfl⟩
  | cons name names ih =>
    rw [List.foldl_cons]
    rcases Setting.ofName_cases name with ⟨setting, rfl⟩ | unknown
    · rw [Setting.ofName_name]
      exact (ih _).cons
    · rw [unknown]
      refine (ih after).skip fun setting same => ?_
      cases (same ▸ Setting.ofName_name setting).symm.trans unknown

/-- What was kept are values that settings had before. -/
def Recalls (before : Session) (saved : List (String × Datum)) : Prop :=
  ∀ entry ∈ saved, ∃ setting : Setting, entry = (setting.name, before.settings.get setting)

theorem putBack_eq {saved : List (String × Datum)} (recalls : Recalls before saved) (session : Session) :
    ∃ settings, session.putBack saved = session.withValues settings ∧
      Mixes (saved.map (·.1)) before.settings session.settings settings := by
  induction saved generalizing session with
  | nil => exact ⟨session.settings, rfl, nofun, fun _ _ => rfl⟩
  | cons entry saved ih =>
    obtain ⟨first, rfl⟩ := recalls entry List.mem_cons_self
    obtain ⟨settings, same, mixes⟩ := ih (fun other later => recalls other (List.mem_cons_of_mem _ later))
      (session.withValues (session.settings.set first (before.settings.get first)))
    refine ⟨settings, ?_, mixes.cons⟩
    unfold putBack at same ⊢
    rw [List.foldl_cons]
    dsimp only
    rw [assign_known]
    exact same

structure IsChanged (before : Session) (values : List (String × Datum)) (changes : Changes) : Prop where
  recalls : Recalls before changes.saved
  session : ∃ settings, changes.session = before.withValues settings ∧
    ∀ setting, setting.name ∉ changes.saved.map (·.1) → settings.get setting = before.settings.get setting
  inside : ∀ entry ∈ changes.saved, entry.1 ∈ values.map (·.1)
  done : changes.fault = none → changes.saved.map (·.1) = values.map (·.1) ∧
    before.assignAll values = .ok changes.session
  stopped : ∀ fault, changes.fault = some fault → before.assignAll values = .error fault

theorem assignAll_cons (before : Session) (setting : Setting) (value : Datum)
    (values : List (String × Datum)) : before.assignAll ((setting.name, value) :: values) =
      (before.withValues (before.settings.set setting value)).assignAll values := by
  unfold assignAll Settings.assignAll
  rw [List.foldlM_cons]
  dsimp only
  unfold Settings.assign
  rw [Setting.ofName_name]
  rfl

theorem change_cons (before : Session) (setting : Setting) (value : Datum)
    (values : List (String × Datum)) : before.change ((setting.name, value) :: values) =
      { (before.withValues (before.settings.set setting value)).change values with
        saved := (setting.name, before.settings.get setting) ::
          ((before.withValues (before.settings.set setting value)).change values).saved } := by
  rw [change, lookup_known, assign_known]

theorem isChanged {values : List (String × Datum)} (distinct : (values.map (·.1)).Nodup) (before : Session) :
    IsChanged before values (before.change values) := by
  induction values generalizing before with
  | nil => exact ⟨nofun, ⟨before.settings, rfl, fun _ _ => rfl⟩, nofun, fun _ => ⟨rfl, rfl⟩, nofun⟩
  | cons entry values ih =>
    obtain ⟨name, value⟩ := entry
    rw [List.map_cons, List.nodup_cons] at distinct
    rcases Setting.ofName_cases name with ⟨setting, rfl⟩ | unknown
    · have later := ih distinct.2 (before.withValues (before.settings.set setting value))
      rw [change_cons]
      refine ⟨?_, ?_, ?_, ?_, ?_⟩
      · intro kept member
        rcases List.mem_cons.mp member with rfl | member
        · exact ⟨setting, rfl⟩
        · obtain ⟨other, rfl⟩ := later.recalls kept member
          have different : other ≠ setting := by
            rintro rfl
            exact distinct.1 (later.inside _ member :)
          exact ⟨other, congrArg (Prod.mk other.name) (if_neg different)⟩
      · obtain ⟨settings, same, untouched⟩ := later.session
        refine ⟨settings, same, fun other absent => ?_⟩
        rw [untouched other fun member => absent (List.mem_cons_of_mem _ member)]
        exact if_neg fun equal : other = setting => absent (equal ▸ List.mem_cons_self)
      · intro kept member
        rcases List.mem_cons.mp member with rfl | member
        · exact List.mem_cons_self
        · exact List.mem_cons_of_mem _ (later.inside kept member)
      · intro complete
        obtain ⟨names, assigned⟩ := later.done complete
        exact ⟨congrArg (List.cons setting.name) names, (assignAll_cons before setting value values).trans assigned⟩
      · intro fault stop
        exact (assignAll_cons before setting value values).trans (later.stopped fault stop)
    · have refused : before.change ((name, value) :: values) = ⟨[], some (.unknownSetting name), before⟩ := by
        unfold change Settings.lookup
        rw [unknown]
        rfl
      rw [refused]
      refine ⟨nofun, ⟨before.settings, rfl, fun _ _ => rfl⟩, nofun, nofun, ?_⟩
      rintro fault ⟨⟩
      unfold assignAll Settings.assignAll
      rw [List.foldlM_cons]
      dsimp only
      unfold Settings.assign
      rw [unknown]
      rfl

/-- Putting back undoes changes that were cut short. -/
theorem putBack_stopped {values : List (String × Datum)} {changes : Changes}
    (changed : IsChanged before values changes) : changes.session.putBack changes.saved = before := by
  obtain ⟨inside, same, untouched⟩ := changed.session
  obtain ⟨settings, back, mixes⟩ := putBack_eq changed.recalls changes.session
  rw [same] at back mixes ⊢
  have restored : settings = before.settings := by
    refine mixes.unique ⟨fun _ _ => rfl, fun setting absent => ?_⟩
    exact (untouched setting absent).symm
  rw [back, restored]
  rfl

/-- Putting back is leaving the scope. -/
theorem putBack_done {values : List (String × Datum)} {changes : Changes}
    (changed : IsChanged before values changes) (complete : changes.fault = none) (after : Session) :
    after.putBack changes.saved = after.leaveScope before (values.map (·.1)) := by
  obtain ⟨settings, back, mixes⟩ := putBack_eq changed.recalls after
  rw [(changed.done complete).1] at mixes
  rw [back, mixes.unique (mixes_restore after.settings before.settings _)]
  rfl

end Session

namespace Session

/-- The session goes on with these values, and with other settings as they were. -/
structure Overridden (before : Session) (values : List (String × Datum)) (session : Session) : Prop where
  rest : session = before.withValues session.settings
  named : ∀ entry ∈ values, session.settings.lookup entry.1 = .ok entry.2
  others : ∀ setting : Setting, setting.name ∉ values.map (·.1) →
    session.settings.get setting = before.settings.get setting

/-- Settings are all changed, or the first unknown name refuses them all. -/
theorem assignAll_outcome {values : List (String × Datum)} (distinct : (values.map (·.1)).Nodup)
    (before : Session) :
    ((∀ name ∈ values.map (·.1), ∃ setting : Setting, setting.name = name) ∧
      ∃ session, before.assignAll values = .ok session ∧ Overridden before values session) ∨
    ∃ name ∈ values.map (·.1), Setting.ofName name = .error (.unknownSetting name) ∧
      before.assignAll values = .error (.unknownSetting name) := by
  induction values generalizing before with
  | nil => exact .inl ⟨nofun, before, rfl, rfl, nofun, fun _ _ => rfl⟩
  | cons entry values ih =>
    obtain ⟨name, value⟩ := entry
    rw [List.map_cons, List.nodup_cons] at distinct
    rcases Setting.ofName_cases name with ⟨setting, rfl⟩ | unknown
    · rw [assignAll_cons]
      rcases ih distinct.2 (before.withValues (before.settings.set setting value)) with
        ⟨known, session, assigned, overridden⟩ | ⟨name, member, unknown, refused⟩
      · refine .inl ⟨?_, session, assigned, overridden.rest, ?_, ?_⟩
        · intro name member
          rcases List.mem_cons.mp member with rfl | later
          · exact ⟨setting, rfl⟩
          · exact known name later
        · intro entry member
          rcases List.mem_cons.mp member with rfl | later
          · rw [lookup_known, overridden.others setting distinct.1]
            exact congrArg Except.ok (if_pos rfl)
          · exact overridden.named entry later
        · intro other absent
          rw [overridden.others other fun later => absent (List.mem_cons_of_mem _ later)]
          exact if_neg fun equal : other = setting => absent (equal ▸ List.mem_cons_self)
      · exact .inr ⟨name, List.mem_cons_of_mem _ member, unknown, refused⟩
    · refine .inr ⟨name, List.mem_cons_self, unknown, ?_⟩
      unfold assignAll Settings.assignAll
      rw [List.foldlM_cons]
      dsimp only
      unfold Settings.assign
      rw [unknown]
      rfl

theorem lookup_self_isSome {values : List (String × Datum)} :
    (values.lookup "self").isSome = true ↔ "self" ∈ values.map (·.1) := by
  simp [List.lookup_isSome_iff]

end Session

namespace Body

variable {α β : Type} {overrides : Overrides} {body : Body α} {direct : Setting → Prop}

/-- Overriding settings in place is entering a scope and leaving it. -/
theorem overriding_eq (overrides : Overrides) (body : Body α) (world : Workspace) :
    overriding overrides body world =
      match world.session.enterScope overrides.values with
      | .error fault => (.error fault, world)
      | .ok inside =>
        let ending := body { world with session := inside }
        (ending.1, { ending.2 with session := ending.2.session.leaveScope world.session overrides.names }) := by
  have changed := Session.isChanged overrides.distinct world.session
  unfold overriding Session.enterScope
  split
  next => rfl
  next =>
    dsimp only
    cases stop : (world.session.change overrides.values).fault with
    | none =>
      rw [(changed.done stop).2]
      dsimp only
      rw [Session.putBack_done changed stop]
      rfl
    | some fault =>
      rw [changed.stopped fault stop]
      dsimp only
      rw [Session.putBack_stopped changed]

/-- What a body with overridden settings comes to. -/
theorem overriding_outcome (overrides : Overrides) (body : Body α) (world : Workspace) :
    ("self" ∈ overrides.names ∧ overriding overrides body world = (.error .unsupported, world)) ∨
    ("self" ∉ overrides.names ∧ ∃ name ∈ overrides.names,
      Setting.ofName name = .error (.unknownSetting name) ∧
      overriding overrides body world = (.error (.unknownSetting name), world)) ∨
    ((∀ name ∈ overrides.names, ∃ setting : Setting, setting.name = name) ∧ ∃ session,
      Session.Overridden world.session overrides.values session ∧
      let ending := body { world with session := session }
      overriding overrides body world = (ending.1, { ending.2 with
        session := ending.2.session.leaveScope world.session overrides.names })) := by
  rw [overriding_eq]
  unfold Session.enterScope
  by_cases self : "self" ∈ overrides.names
  · rw [if_pos (Session.lookup_self_isSome.mpr self)]
    exact .inl ⟨self, rfl⟩
  · rw [if_neg (mt Session.lookup_self_isSome.mp self)]
    rcases Session.assignAll_outcome overrides.distinct world.session with
      ⟨known, session, assigned, overridden⟩ | ⟨name, member, unknown, refused⟩
    · rw [assigned]
      exact .inr (.inr ⟨known, session, overridden, rfl⟩)
    · rw [refused]
      exact .inr (.inl ⟨self, name, member, unknown, rfl⟩)

theorem bind_apply (body : Body α) (next : α → Body β) (world : Workspace) :
    (body >>= next) world = match body world with
      | (.ok a, after) => next a after
      | (.error fault, after) => (.error fault, after) := by
  change (match body world with
    | (outcome, after) => (ExceptT.bindCont next outcome : StateM Workspace _) after) = _
  rcases body world with ⟨fault | a, after⟩ <;> rfl

theorem tryCatch_apply (body : Body α) (handler : Fault → Body α) (world : Workspace) :
    (tryCatch body handler : Body α) world = match body world with
      | (.ok a, after) => (.ok a, after)
      | (.error fault, after) => handler fault after := by
  simp only [tryCatch, tryCatchThe, MonadExceptOf.tryCatch, ExceptT.tryCatch]
  unfold ExceptT.mk
  simp only [bind, StateT.bind]
  rcases body world with ⟨_ | _, _⟩ <;> rfl

/-- What happens in a scope is what happens in the body, but for the settings that are overridden. -/
theorem get_overriding (overrides : Overrides) (body : Body α) (world : Workspace) :
    (∀ setting : Setting, setting.name ∈ overrides.names →
      (overriding overrides body world).2.session.settings.get setting =
        world.session.settings.get setting) := by
  intro setting named
  rcases overriding_outcome overrides body world with ⟨-, refused⟩ | ⟨-, name, -, -, refused⟩ |
    ⟨-, session, -, ran⟩
  · rw [refused]
  · rw [refused]
  · rw [ran]
    exact (Session.mixes_restore _ _ _).named setting named

theorem AssignsOnly.timed {body : Body α} {setting : Setting} {now : Rat}
    (keeps : ∀ world : Workspace,
      (body world).2.session.settings.get setting = world.session.settings.get setting) (world : Workspace) :
    (timed now body world).2.session.settings.get setting = world.session.settings.get setting := by
  unfold Body.timed
  split
  next => rfl
  next guard _ => exact keeps { world with guard := guard }

theorem get_overriding_other {body : Body α} {setting : Setting}
    (keeps : setting.name ∉ overrides.names → ∀ world : Workspace,
      (body world).2.session.settings.get setting = world.session.settings.get setting) (world : Workspace) :
    (overriding overrides body world).2.session.settings.get setting =
      world.session.settings.get setting := by
  by_cases named : setting.name ∈ overrides.names
  · exact get_overriding overrides body world setting named
  rcases overriding_outcome overrides body world with ⟨-, refused⟩ | ⟨-, name, -, -, refused⟩ |
    ⟨-, session, overridden, ran⟩
  · rw [refused]
  · rw [refused]
  · rw [ran]
    exact ((Session.mixes_restore _ _ _).others setting named).trans
      ((keeps named _).trans (overridden.others setting named))

/-- A setting that is touched at most in nested scopes is as it was, however the body ends. -/
theorem AssignsOnly.keeps {body : Body α} (assigns : AssignsOnly direct body) {setting : Setting}
    (untouched : ¬ direct setting) (world : Workspace) :
    (body world).2.session.settings.get setting = world.session.settings.get setting := by
  induction assigns generalizing world with
  | other keeps => rw [keeps]
  | @assign direct name value known =>
    rcases Setting.ofName_cases name with ⟨target, rfl⟩ | unknown
    · unfold Body.assign
      rw [Session.lookup_known, Session.assign_known]
      exact if_neg fun same : setting = target => untouched (same ▸ known target (Setting.ofName_name target))
    · unfold Body.assign Settings.lookup
      rw [unknown]
      rfl
  | @bind direct α β body next first later ih ihLater =>
    rw [bind_apply]
    have before := ih untouched world
    generalize body world = ending at before ⊢
    obtain ⟨fault | a, after⟩ := ending
    · exact before
    · exact (ihLater a untouched after).trans before
  | @tryCatch direct α body handler first later ih ihLater =>
    rw [tryCatch_apply]
    have before := ih untouched world
    generalize body world = ending at before ⊢
    obtain ⟨fault | a, after⟩ := ending
    · exact (ihLater fault untouched after).trans before
    · exact before
  | overriding inside ih =>
    exact get_overriding_other (fun named world => ih (not_or.mpr ⟨untouched, named⟩) world) world
  | @entryPoint direct now α body inside ih =>
    unfold Body.entryPoint
    split
    · exact AssignsOnly.timed (ih untouched) world
    · exact get_overriding_other (fun _ => AssignsOnly.timed (ih untouched)) world

/-- Overrides are atomic and restore on every path. For every body, whatever it does and however it ends:
with known names it runs with the new values, and its outcome is the outcome of the scope; every overridden
setting is as it was before, and so is every setting that the body touches at most in nested scopes; with an
unknown name the body does not run at all, the fault names it, and nothing has changed. -/
theorem overriding_restores (overrides : Overrides) (body : Body α) (world : Workspace) :
    ((∀ name ∈ overrides.names, ∃ setting, Setting.ofName name = .ok setting) →
      ∃ session, Session.Overridden world.session overrides.values session ∧
        (overriding overrides body world).1 = (body { world with session := session }).1) ∧
    (∀ setting : Setting, setting.name ∈ overrides.names →
      (overriding overrides body world).2.session.settings.get setting =
        world.session.settings.get setting) ∧
    (∀ direct, AssignsOnly direct body → ∀ setting, ¬ direct setting →
      (overriding overrides body world).2.session.settings.get setting =
        world.session.settings.get setting) ∧
    ("self" ∉ overrides.names → (∃ name ∈ overrides.names, ∀ setting : Setting, setting.name ≠ name) →
      ∃ name ∈ overrides.names, (∀ setting : Setting, setting.name ≠ name) ∧
        overriding overrides body world = (.error (.unknownSetting name), world)) := by
  have distinguish {name : String} (unknown : Setting.ofName name = .error (.unknownSetting name))
      (setting : Setting) : setting.name ≠ name := by
    rintro rfl
    cases (Setting.ofName_name setting).symm.trans unknown
  refine ⟨?_, get_overriding overrides body world, ?_, ?_⟩
  · intro known
    rcases overriding_outcome overrides body world with ⟨self, -⟩ | ⟨-, name, member, unknown, -⟩ |
      ⟨-, session, overridden, ran⟩
    · obtain ⟨setting, found⟩ := known "self" self
      cases found
    · obtain ⟨setting, found⟩ := known name member
      cases found.symm.trans unknown
    · exact ⟨session, overridden, by rw [ran]⟩
  · intro direct assigns setting untouched
    exact get_overriding_other (fun _ => assigns.keeps untouched) world
  · rintro self ⟨name, member, unknown⟩
    rcases overriding_outcome overrides body world with ⟨present, -⟩ | ⟨-, first, place, missing, refused⟩ |
      ⟨known, -⟩
    · exact absurd present self
    · exact ⟨first, place, distinguish missing, refused⟩
    · obtain ⟨setting, same⟩ := known name member
      exact absurd same (unknown setting)

/-- The precision is as it was when a division by zero leaves two scopes, the inner one of which changes
it; and with a name of no setting not even the precision before it is changed. -/
theorem precision_is_restored :
    (overriding ⟨[("timeout_ms", .whole 5)], by decide⟩
      (overriding ⟨[("precision", .whole 3)], by decide⟩ (throw .divisionByZero : Body Unit))
        ⟨.initial, .idle⟩).2.session.settings.get .precision = .whole 21 ∧
    overriding ⟨[("precision", .whole 3), ("nonsense", .absent)], by decide⟩
      (assign "precision" (.whole 4)) ⟨.initial, .idle⟩ =
        (.error (.unknownSetting "nonsense"), ⟨.initial, .idle⟩) := by
  constructor
  · refine (overriding_restores _ _ _).2.2.1 (fun _ => False) (.overriding (.other fun _ => rfl)) _ id
  · obtain ⟨name, member, unknown, refused⟩ := (overriding_restores
      ⟨[("precision", .whole 3), ("nonsense", .absent)], by decide⟩ (assign "precision" (.whole 4))
      ⟨.initial, .idle⟩).2.2.2 (by decide) ⟨"nonsense", by decide, by rintro ⟨⟩ <;> decide⟩
    rcases List.mem_cons.mp member with rfl | later
    · exact absurd rfl (unknown .precision)
    · rw [List.mem_singleton.mp later] at refused
      exact refused

/-- A scope cannot be given the name of no setting `self`, and refuses it with another fault. -/
theorem override_of_self_is_no_unknown_setting :
    (∀ setting : Setting, setting.name ≠ "self") ∧
      ∀ name, overriding ⟨[("self", .whole 1)], by decide⟩ (pure () : Body Unit) ⟨.initial, .idle⟩ ≠
        (.error (.unknownSetting name), ⟨.initial, .idle⟩) := by
  refine ⟨by rintro ⟨⟩ <;> decide, fun name same => ?_⟩
  cases congrArg Prod.fst same

end Body

end ExactAlgebra
