import ExactAlgebra.Builtin.Call
import Mathlib

/-! Computations taken apart: one that returned is made of parts that did. What a computation in a context comes
to, however often the clock was looked at before: it returns something with a property, or it fails with a fault
of an accepted kind. -/
namespace ExactAlgebra.Outcome

variable {ε α β : Type}

/-- A composed computation returned, so its parts did. -/
theorem bind_ok {x : Except ε α} {f : α → Except ε β} {r : β} (returned : (x >>= f) = .ok r) :
    ∃ a, x = .ok a ∧ f a = .ok r := by
  cases x with
  | error => cases returned
  | ok a => exact ⟨a, rfl, returned⟩

/-- A composed computation failed, so one of its parts did. -/
theorem bind_error {x : Except ε α} {f : α → Except ε β} {fault : ε}
    (failed : (x >>= f) = .error fault) : x = .error fault ∨ ∃ a, x = .ok a ∧ f a = .error fault := by
  cases x with
  | error =>
    cases failed
    exact .inl rfl
  | ok a => exact .inr ⟨a, rfl, failed⟩

/-- A check that refuses was passed. -/
theorem passed {p : Prop} [Decidable p] {fault : ε} {x : Except ε α} {r : α}
    (returned : (if p then .error fault else x) = .ok r) : ¬ p ∧ x = .ok r := by
  by_cases refused : p
  · rw [if_pos refused] at returned
    cases returned
  · rw [if_neg refused] at returned
    exact ⟨refused, returned⟩

theorem mem_of_mapM {f : α → Except ε β} {as : List α} {bs : List β} (returned : as.mapM f = .ok bs)
    {b : β} (member : b ∈ bs) : ∃ a ∈ as, f a = .ok b := by
  induction as generalizing bs with
  | nil =>
    cases returned
    cases member
  | cons a as ih =>
    rw [List.mapM_cons] at returned
    obtain ⟨c, first, returned⟩ := bind_ok returned
    obtain ⟨cs, others, returned⟩ := bind_ok returned
    cases returned
    rcases List.mem_cons.mp member with rfl | later
    · exact ⟨a, List.mem_cons_self, first⟩
    · obtain ⟨d, inside, same⟩ := ih others later
      exact ⟨d, List.mem_cons_of_mem _ inside, same⟩

theorem length_of_mapM {f : α → Except ε β} {as : List α} {bs : List β} (returned : as.mapM f = .ok bs) :
    as.length = bs.length := by
  induction as generalizing bs with
  | nil =>
    cases returned
    rfl
  | cons a as ih =>
    rw [List.mapM_cons] at returned
    obtain ⟨c, -, returned⟩ := bind_ok returned
    obtain ⟨cs, others, returned⟩ := bind_ok returned
    cases returned
    rw [List.length_cons, List.length_cons, ih others]

theorem eq_map_of_mapM {f : α → Except ε β} {g : α → β} {as : List α} {bs : List β}
    (returned : as.mapM f = .ok bs) (each : ∀ a ∈ as, ∀ b, f a = .ok b → b = g a) : bs = as.map g := by
  induction as generalizing bs with
  | nil =>
    cases returned
    rfl
  | cons a as ih =>
    rw [List.mapM_cons] at returned
    obtain ⟨c, first, returned⟩ := bind_ok returned
    obtain ⟨cs, others, returned⟩ := bind_ok returned
    cases returned
    rw [each a List.mem_cons_self c first,
      ih others fun d later => each d (List.mem_cons_of_mem _ later), List.map_cons]

theorem ok_of_toOption {x : Except ε α} {r : α} (returned : x.toOption = some r) : x = .ok r := by
  cases x with
  | error => cases returned
  | ok a => rw [Option.some.inj returned]

end ExactAlgebra.Outcome

namespace ExactAlgebra.Engine

variable {α β : Type} {context : Context} {accepts : Fault → Prop}

/-- In the context, the computation returns something with the property or fails with an accepted
fault. -/
def Meets (context : Context) (accepts : Fault → Prop) (x : Engine α) (post : α → Prop) : Prop :=
  ∀ looks : Nat,
    match (x context).run.run looks with
    | (.ok r, _) => post r
    | (.error fault, _) => accepts fault

theorem Meets.pure {post : α → Prop} {a : α} (holds : post a) :
    Meets context accepts (Pure.pure a) post := fun _ => holds

theorem run_bind (x : Engine α) (f : α → Engine β) (context : Context) (looks : Nat) :
    ((x >>= f) context).run.run looks =
      match (x context).run.run looks with
      | (.ok a, later) => (f a context).run.run later
      | (.error fault, later) => (.error fault, later) := by
  change (fun reached : Except Fault α × Nat =>
    ExceptT.bindCont (fun a => f a context) reached.1 reached.2) ((x context).run.run looks) = _
  rcases (x context).run.run looks with ⟨_ | _, _⟩ <;> rfl

/-- The handler goes on where the computation failed. -/
theorem run_tryCatch (x : Engine α) (handle : Fault → Engine α) (context : Context) (looks : Nat) :
    ((tryCatch x handle : Engine α) context).run.run looks =
      match (x context).run.run looks with
      | (.ok a, later) => (.ok a, later)
      | (.error fault, later) => (handle fault context).run.run later := by
  simp only [tryCatch, tryCatchThe, MonadExceptOf.tryCatch, ExceptT.tryCatch]
  unfold ExceptT.run StateT.run ExceptT.mk
  simp only [bind, StateT.bind]
  rcases x context looks with ⟨_ | _, _⟩ <;> rfl

theorem Meets.bind {x : Engine α} {f : α → Engine β} (mid : α → Prop) {post : β → Prop}
    (first : Meets context accepts x mid)
    (next : ∀ a, mid a → Meets context accepts (f a) post) :
    Meets context accepts (x >>= f) post := by
  intro looks
  have reached := first looks
  cases outcome : (x context).run.run looks with
  | mk result later =>
    rw [outcome] at reached
    rw [run_bind, outcome]
    cases result with
    | ok a => exact next a reached later
    | error fault => exact reached

/-- A step that neither reads the context nor looks at the clock. -/
theorem Meets.lift {x : Except Fault α} {post : α → Prop}
    (holds : ∀ a, x = .ok a → post a) (fails : ∀ fault, x = .error fault → accepts fault) :
    Meets context accepts (liftM x : Engine α) post := by
  intro looks
  cases x with
  | ok a => exact holds a rfl
  | error fault => exact fails fault rfl

theorem Meets.of_ok {x : Except Fault α} {r : α} (computed : x = .ok r) :
    Meets context accepts (liftM x : Engine α) (· = r) := by
  refine Meets.lift (fun s returned => ?_) fun fault failed => ?_
  · exact Except.ok.inj (returned.symm.trans computed)
  · cases failed.symm.trans computed

theorem Meets.throw {post : α → Prop} {fault : Fault} (accepted : accepts fault) :
    Meets context accepts (MonadExcept.throw fault : Engine α) post := fun _ => accepted

theorem Meets.read {post : Context → Prop} (holds : post context) :
    Meets context accepts (MonadReader.read : Engine Context) post := fun _ => holds

theorem Meets.look : Meets context accepts look fun _ => True := fun _ => trivial

/-- Nothing is said of the answer, and any fault is accepted. -/
theorem Meets.anyway (x : Engine α) : Meets context (fun _ => True) x fun _ => True := by
  intro looks
  split <;> trivial

theorem Meets.imp {x : Engine α} {post weaker : α → Prop} (meets : Meets context accepts x post)
    (implies : ∀ a, post a → weaker a) : Meets context accepts x weaker := by
  intro looks
  have reached := meets looks
  cases outcome : (x context).run.run looks with
  | mk result later =>
    rw [outcome] at reached
    cases result with
    | ok a => exact implies a reached
    | error fault => exact reached

theorem Meets.accept {x : Engine α} {post : α → Prop} {more : Fault → Prop}
    (meets : Meets context accepts x post) (implies : ∀ fault, accepts fault → more fault) :
    Meets context more x post := by
  intro looks
  have reached := meets looks
  cases outcome : (x context).run.run looks with
  | mk result later =>
    rw [outcome] at reached
    cases result with
    | ok a => exact reached
    | error fault => exact implies fault reached

/-- A loop over a list keeps what each of its steps keeps. -/
theorem Meets.foldlM {step : β → α → Engine β} {items : List α} {init : β} {kept : β → Prop}
    (start : kept init)
    (steps : ∀ b, kept b → ∀ a ∈ items, Meets context accepts (step b a) kept) :
    Meets context accepts (items.foldlM step init) kept := by
  induction items generalizing init with
  | nil => exact Meets.pure start
  | cons a rest ih =>
    rw [List.foldlM_cons]
    refine Meets.bind kept (steps init start a List.mem_cons_self) fun b reached => ?_
    exact ih reached fun b holds a later => steps b holds a (List.mem_cons_of_mem _ later)

/-- A loop whose steps add the values of the items adds up their sum. -/
theorem Meets.foldlM_sum {M : Type} [AddMonoid M] {step : β → α → Engine β} {items : List α}
    {init : β} (kept : M → β → Prop) {total : M} (value : α → M) (start : kept total init)
    (steps : ∀ total b, kept total b → ∀ a ∈ items,
      Meets context accepts (step b a) (kept (total + value a))) :
    Meets context accepts (items.foldlM step init) (kept (total + (items.map value).sum)) := by
  induction items generalizing init total with
  | nil => exact Meets.pure (by simpa using start)
  | cons a rest ih =>
    rw [List.foldlM_cons, List.map_cons, List.sum_cons, ← add_assoc]
    refine Meets.bind _ (steps total init start a List.mem_cons_self) fun b reached => ?_
    exact ih reached fun total b holds a later => steps total b holds a (List.mem_cons_of_mem _ later)

/-- A loop whose steps multiply the values of the items computes their product. -/
theorem Meets.foldlM_prod {M : Type} [Monoid M] {step : β → α → Engine β} {items : List α}
    {init : β} (kept : M → β → Prop) {total : M} (value : α → M) (start : kept total init)
    (steps : ∀ total b, kept total b → ∀ a ∈ items,
      Meets context accepts (step b a) (kept (total * value a))) :
    Meets context accepts (items.foldlM step init) (kept (total * (items.map value).prod)) := by
  induction items generalizing init total with
  | nil => exact Meets.pure (by simpa using start)
  | cons a rest ih =>
    rw [List.foldlM_cons, List.map_cons, List.prod_cons, ← mul_assoc]
    refine Meets.bind _ (steps total init start a List.mem_cons_self) fun b reached => ?_
    exact ih reached fun total b holds a later => steps total b holds a (List.mem_cons_of_mem _ later)

/-- A list of answers, one for each index. -/
theorem Meets.mapM_forall₂ {ι : Type} {f : α → Engine β} {h : ι → α} {items : List ι}
    {related : ι → β → Prop} (each : ∀ i ∈ items, Meets context accepts (f (h i)) (related i)) :
    Meets context accepts ((items.map h).mapM f) (List.Forall₂ related items) := by
  induction items with
  | nil => exact Meets.pure .nil
  | cons i rest ih =>
    rw [List.map_cons, List.mapM_cons]
    refine Meets.bind _ (each i List.mem_cons_self) fun b first => ?_
    refine Meets.bind _ (ih fun j later => each j (List.mem_cons_of_mem _ later)) fun bs others => ?_
    exact Meets.pure (.cons first others)

/-- The answers are the values of a function. -/
theorem Meets.mapM_map {ι : Type} {f : α → Engine β} {h : ι → α} {g : ι → β} {items : List ι}
    (each : ∀ i ∈ items, Meets context accepts (f (h i)) (· = g i)) :
    Meets context accepts ((items.map h).mapM f) (· = items.map g) := by
  refine (Meets.mapM_forall₂ each).imp fun bs all => ?_
  rw [← List.forall₂_eq_eq_eq, List.forall₂_map_right_iff]
  exact all.flip

theorem exists_of_forall₂ {related : α → β → Prop} {as : List α} {bs : List β}
    (all : List.Forall₂ related as bs) :
    (∀ b ∈ bs, ∃ a ∈ as, related a b) ∧ ∀ a ∈ as, ∃ b ∈ bs, related a b := by
  induction all with
  | nil => exact ⟨by simp, by simp⟩
  | @cons a b as bs first _ ih =>
    obtain ⟨sources, targets⟩ := ih
    refine ⟨List.forall_mem_cons.mpr ⟨⟨a, List.mem_cons_self, first⟩, fun c later => ?_⟩,
      List.forall_mem_cons.mpr ⟨⟨b, List.mem_cons_self, first⟩, fun c later => ?_⟩⟩
    · obtain ⟨d, inside, holds⟩ := sources c later
      exact ⟨d, List.mem_cons_of_mem _ inside, holds⟩
    · obtain ⟨d, inside, holds⟩ := targets c later
      exact ⟨d, List.mem_cons_of_mem _ inside, holds⟩

/-- The answers for the items of a list: each comes from an item, and each item has one. -/
theorem Meets.mapM {f : α → Engine β} {items : List α} {related : α → β → Prop}
    (each : ∀ a ∈ items, Meets context accepts (f a) (related a)) :
    Meets context accepts (items.mapM f) fun bs =>
      (∀ b ∈ bs, ∃ a ∈ items, related a b) ∧ ∀ a ∈ items, ∃ b ∈ bs, related a b := by
  have answers := @Meets.mapM_forall₂ α β context accepts α f id items related each
  rw [List.map_id] at answers
  exact answers.imp fun _ => exists_of_forall₂

/-- A loop over the first numbers keeps what its steps keep from one to the next. -/
theorem Meets.foldlM_range {step : β → ℕ → Engine β} {init : β} {n : ℕ} (kept : ℕ → β → Prop)
    (start : kept 0 init)
    (steps : ∀ i < n, ∀ b, kept i b → Meets context accepts (step b i) (kept (i + 1))) :
    Meets context accepts ((List.range n).foldlM step init) (kept n) := by
  induction n with
  | zero => exact Meets.pure start
  | succ n ih =>
    rw [List.range_succ, List.foldlM_append]
    refine Meets.bind _ (ih fun i small => steps i (Nat.lt_succ_of_lt small)) fun b reached => ?_
    rw [List.foldlM_cons]
    exact Meets.bind _ (steps n (Nat.lt_succ_self n) b reached) fun c last => Meets.pure last

/-- A loop that only looks at the items. -/
theorem Meets.forIn_unit {items : List α} {look : α → PUnit → Engine (ForInStep PUnit)}
    {holds : α → Prop} (each : ∀ a ∈ items, Meets context accepts (look a ⟨⟩) fun step =>
      step = .yield ⟨⟩ ∧ holds a) :
    Meets context accepts (forIn items ⟨⟩ look) fun _ => ∀ a ∈ items, holds a := by
  induction items with
  | nil => exact Meets.pure (by simp)
  | cons a rest ih =>
    rw [List.forIn_cons]
    refine Meets.bind _ (each a List.mem_cons_self) ?_
    rintro _ ⟨rfl, first⟩
    refine (ih fun b later => each b (List.mem_cons_of_mem _ later)).imp fun _ others => ?_
    exact List.forall_mem_cons.mpr ⟨first, others⟩

theorem Meets.filterMapM {f : α → Engine (Option β)} {items : List α} {post : β → Prop}
    (each : ∀ a ∈ items, Meets context accepts (f a) fun b? => ∀ b, b? = some b → post b) :
    Meets context accepts (items.filterMapM f) fun bs => ∀ b ∈ bs, post b := by
  induction items with
  | nil => exact Meets.pure (by simp)
  | cons a rest ih =>
    have others := ih fun c later => each c (List.mem_cons_of_mem _ later)
    rw [List.filterMapM_cons]
    refine Meets.bind _ (each a List.mem_cons_self) fun b? first => ?_
    cases b? with
    | none => exact others
    | some b =>
      exact Meets.bind _ others fun bs holds => Meets.pure (List.forall_mem_cons.mpr ⟨first b rfl, holds⟩)

/-- What a test lets pass of a list: items that it decided to keep, and all but those that it decided
to drop. -/
theorem Meets.filterM {test : α → Engine Bool} {items : List α} {decides : α → Bool → Prop}
    (each : ∀ a ∈ items, Meets context accepts (test a) (decides a)) :
    Meets context accepts (items.filterM test) fun kept =>
      (∀ a ∈ kept, a ∈ items ∧ decides a true) ∧ ∀ a ∈ items, a ∈ kept ∨ decides a false := by
  have loop (before done items : List α)
      (each : ∀ a ∈ items, Meets context accepts (test a) (decides a))
      (passed : ∀ a ∈ done, a ∈ before ∧ decides a true)
      (dropped : ∀ a ∈ before, a ∈ done ∨ decides a false) :
      Meets context accepts (items.filterAuxM test done) fun kept =>
        (∀ a ∈ kept, a ∈ before ++ items ∧ decides a true) ∧
          ∀ a ∈ before ++ items, a ∈ kept ∨ decides a false := by
    induction items generalizing before done with
    | nil => exact Meets.pure (by simpa using ⟨passed, dropped⟩)
    | cons a rest ih =>
      have later := fun c member => each c (List.mem_cons_of_mem a member)
      rw [List.append_cons]
      refine Meets.bind _ (each a List.mem_cons_self) fun keep decided => ?_
      cases keep with
      | true =>
        refine ih _ _ later (fun c member => ?_) fun c member => ?_
        · rcases List.mem_cons.mp member with rfl | old
          · exact ⟨by simp, decided⟩
          · exact ⟨List.mem_append_left _ (passed c old).1, (passed c old).2⟩
        · rcases List.mem_append.mp member with old | new
          · exact (dropped c old).imp_left (List.mem_cons_of_mem _)
          · obtain rfl := List.mem_singleton.mp new
            exact .inl List.mem_cons_self
      | false =>
        refine ih _ _ later (fun c member => ?_) fun c member => ?_
        · exact ⟨List.mem_append_left _ (passed c member).1, (passed c member).2⟩
        · rcases List.mem_append.mp member with old | new
          · exact dropped c old
          · obtain rfl := List.mem_singleton.mp new
            exact .inr decided
  unfold List.filterM
  refine Meets.bind _ (loop [] [] items each (by simp) (by simp)) fun kept spec => Meets.pure ?_
  simpa using spec

theorem Meets.returned {x : Engine α} {post : α → Prop} (meets : Meets context accepts x post)
    {looks later : Nat} {r : α} (run : (x context).run.run looks = (.ok r, later)) : post r := by
  have reached := meets looks
  rwa [run] at reached

theorem Meets.of_runIn {scope : Scope} {x : Engine α} {post : α → Prop}
    (meets : Meets ⟨scope, callWithin maxCallDepth⟩ accepts x post) {r : α} (returned : runIn scope x = .ok r) :
    post r := by
  have run : (x ⟨scope, callWithin maxCallDepth⟩).run.run 0 = (.ok r, _) := Prod.ext returned rfl
  exact meets.returned run

/-- A run that is known to meet this and returns nothing has failed with an accepted fault. -/
theorem Meets.refused_of_runIn {scope : Scope} {x : Engine α} {post : α → Prop}
    (meets : Meets ⟨scope, callWithin maxCallDepth⟩ accepts x post) {fault : Fault}
    (refused : runIn scope x = .error fault) : accepts fault := by
  have reached := meets 0
  have run : (x ⟨scope, callWithin maxCallDepth⟩).run.run 0 = (.error fault, _) := Prod.ext refused rfl
  rwa [run] at reached

/-- Running in another scope is running in the context changed that way. -/
theorem Meets.inScope {change : Scope → Scope} {x : Engine α} {post : α → Prop}
    (meets : Meets { context with scope := change context.scope } accepts x post) :
    Meets context accepts (inScope change x) post := meets

/-- If the computation returns something in the context, it has the property. -/
abbrev Returns (context : Context) (x : Engine α) (post : α → Prop) : Prop :=
  Meets context (fun _ => True) x post

theorem Returns.lift {x : Except Fault α} {post : α → Prop} (holds : ∀ a, x = .ok a → post a) :
    Returns context (liftM x : Engine α) post := Meets.lift holds fun _ _ => trivial

/-- An attempt answers when no fault that counts as no answer can occur. -/
theorem Meets.attempt {x : Engine α} {post : α → Prop} {expected : Fault → Bool}
    (meets : Meets context accepts x post) (other : ∀ fault, accepts fault → expected fault = false) :
    Meets context accepts (attempt expected x) fun a? => ∃ a, a? = some a ∧ post a := by
  intro looks
  have reached : Meets context accepts (x >>= fun a => Pure.pure (some a)) fun a? => ∃ a, a? = some a ∧ post a :=
    Meets.bind _ meets fun a holds => Meets.pure ⟨a, rfl, holds⟩
  unfold Engine.attempt
  rw [← bind_pure_comp, run_tryCatch]
  specialize reached looks
  revert reached
  rcases ((x >>= fun a => Pure.pure (some a)) context).run.run looks with ⟨fault | a?, later⟩
  · intro refused
    dsimp only
    rw [other fault refused]
    exact refused
  · exact id

/-- What is met and what holds of everything returned hold together. -/
theorem Meets.and {x : Engine α} {post other : α → Prop} (meets : Meets context accepts x post)
    (returns : Returns context x other) : Meets context accepts x fun r => post r ∧ other r := by
  intro looks
  have reached := meets looks
  have returned := returns looks
  cases outcome : (x context).run.run looks with
  | mk result later =>
    rw [outcome] at reached returned
    cases result with
    | ok r => exact ⟨reached, returned⟩
    | error fault => exact reached

/-- To show what a computation returns, a run that returned may be taken. -/
theorem Returns.of_run {x : Engine α} {post : α → Prop}
    (holds : ∀ looks r later, (x context).run.run looks = (.ok r, later) → post r) :
    Returns context x post := by
  intro looks
  split
  next r later run => exact holds looks r later run
  next => trivial

/-- A loop whose steps return the values of a function returns the value of the folded function. -/
theorem Returns.foldlM {step : β → α → Engine β} {f : β → α → β} {items : List α} {init : β}
    (each : ∀ b, ∀ a ∈ items, Returns context (step b a) (· = f b a)) :
    Returns context (items.foldlM step init) (· = items.foldl f init) := by
  induction items generalizing init with
  | nil => exact Meets.pure rfl
  | cons a rest ih =>
    rw [List.foldlM_cons, List.foldl_cons]
    refine Meets.bind _ (each init a List.mem_cons_self) ?_
    rintro _ rfl
    exact ih fun b c later => each b c (List.mem_cons_of_mem _ later)

theorem exists_run {x : Engine α} {looks : Nat} {r : α}
    (answer : ((x context).run.run looks).1.toOption = some r) :
    ∃ later, (x context).run.run looks = (.ok r, later) :=
  ⟨_, Prod.ext (Outcome.ok_of_toOption answer) rfl⟩

end ExactAlgebra.Engine
