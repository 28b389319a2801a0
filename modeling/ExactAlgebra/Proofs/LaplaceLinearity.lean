import ExactAlgebra.Proofs.Homogeneity
import ExactAlgebra.Proofs.ReliableCalls
import ExactAlgebra.Session.Basic
import Mathlib

/-! The Laplace transform is linear. A transform of a sum is the sum of transforms of its terms, and a
factor in front of a term comes out in front of its transform, because the rules only see the rest. What
the transforms of the terms are depends neither on the levels left nor on the clock, so those for a
combination of two expressions are multiples of those for the expressions. -/
namespace ExactAlgebra
open Engine

variable {α β : Type} {c d : Context}

namespace Engine

theorem lift_map_bind {γ : Type} (x : Except Fault α) (f : α → β) (next : β → Engine γ) :
    (liftM (x.map f) >>= next : Engine γ) = liftM x >>= fun a => next (f a) := by
  cases x <;> rfl

/-- In the context, the computation returns the value for some count of looks at the clock. -/
def Gives (c : Context) (x : Engine α) (a : α) : Prop := ∃ looks, ((x c).run.run looks).1 = .ok a

theorem returns_gives (x : Engine α) : Returns c x (Gives c x) :=
  Returns.of_run fun looks _ _ run => ⟨looks, by rw [run]⟩

theorem Meets.of_gives {accepts : Fault → Prop} {x : Engine α} {post : α → Prop} {a : α}
    (meets : Meets c accepts x post) (gives : Gives c x a) : post a := by
  obtain ⟨looks, answer⟩ := gives
  have run : (x c).run.run looks = (.ok a, _) := Prod.ext answer rfl
  exact meets.returned run

theorem Related.of_gives {related : α → β → Prop} {x : Engine α} {y : Engine β} (holds : Related related x y)
    (twins : Twins c d) {a : α} {b : β} (givesX : Gives c x a) (givesY : Gives d y b) : related a b := by
  obtain ⟨looks, answer⟩ := givesX
  obtain ⟨others, reply⟩ := givesY
  have agree := holds twins looks others
  rwa [answer, reply] at agree

/-- A loop that combines the answers for the items. -/
theorem returns_foldlM_gives (f : α → Engine β) (combine : β → β → Except Fault β) (items : List α) (init : β) :
    Returns c (items.foldlM (fun total a => do combine total (← f a)) init) fun r =>
      ∃ bs, List.Forall₂ (fun a b => Gives c (f a) b) items bs ∧ bs.foldlM combine init = .ok r := by
  induction items generalizing init with
  | nil => exact Meets.pure ⟨[], .nil, rfl⟩
  | cons a rest ih =>
    rw [List.foldlM_cons]
    refine Meets.bind (fun next => ∃ b, Gives c (f a) b ∧ combine init b = .ok next) ?_ ?_
    · exact Meets.bind _ (returns_gives (f a)) fun b gives => Returns.lift fun next added => ⟨b, gives, added⟩
    · rintro next ⟨b, gives, added⟩
      refine (ih next).imp ?_
      rintro r ⟨bs, others, total⟩
      refine ⟨b :: bs, .cons gives others, ?_⟩
      rw [List.foldlM_cons, added]
      exact total

end Engine

def Scope.inBlock (scope : Scope) (guard : Deadline.Guard) : Scope :=
  { scope with
    guard := guard
    settings :=
      if scope.settings.chosen .immutable then scope.settings
      else scope.settings.set .immutable (.flag true) }

theorem Scope.Matches.inBlock {s t : Scope} (same : s.Matches t) (guard other : Deadline.Guard) :
    (s.inBlock guard).Matches (t.inBlock other) := by
  refine ⟨same.functions, ?_, same.rootFinder, same.sound⟩
  rw [Scope.inBlock, Scope.inBlock, same.settings]

theorem Scope.Matches.together {s t u : Scope} (same : s.Matches t) (other : s.Matches u) : t.Matches u :=
  ⟨other.functions.trans same.functions.symm, other.settings.trans same.settings.symm,
    other.rootFinder.trans same.rootFinder.symm, same.functions ▸ same.sound⟩

theorem Engine.returns_guarded (x : Engine α) : Returns c (guarded x) fun r =>
    ∃ guard, Gives { c with scope := c.scope.inBlock guard } x r :=
  Meets.bind _ (Meets.anyway openBlock) fun guard _ =>
    Meets.inScope ((returns_gives x).imp fun _ gives => ⟨guard, gives⟩)

namespace Expr

variable {a b e f g h r : Expr} {k l : Rat} {s t x : String}

theorem contains_scale (nonzero : k ≠ 0) (e : Expr) (x : String) : (e.scale k).contains x = e.contains x := by
  rw [scale_of_ne e nonzero, contains_withCoeff]

theorem isPlainSum_scale (nonzero : k ≠ 0) (e : Expr) : (e.scale k).isPlainSum = e.isPlainSum := by
  rw [scale_of_ne e nonzero, isPlainSum_withCoeff]

theorem isZero_of_contains (inside : e.contains x = true) : e.isZero = false := by
  cases e with
  | number => cases inside
  | _ => rfl

theorem spreadTerms_of_flat (flat : e.isPlainSum = false) : e.spreadTerms = [e] :=
  List.perm_singleton.mp (summands_flat flat ▸ spreadTerms_perm e)

theorem flat_of_mem_spreadTerms (formed : e.WellFormed) {u : Expr} (member : u ∈ e.spreadTerms) :
    u.isPlainSum = false := by
  cases flat : e.isPlainSum with
  | false =>
    rw [spreadTerms_of_flat flat] at member
    exact List.mem_singleton.mp member ▸ flat
  | true =>
    have inside := (spreadTerms_perm e).mem_iff.mp member
    cases e with
    | sum c terms p =>
      obtain rfl : p = 1 := by simpa [isPlainSum] using flat
      rw [summands_plain] at inside
      obtain ⟨v, stored, rfl⟩ := List.mem_map.mp inside
      rw [isPlainSum_withCoeff]
      exact formed.2.2.1.flat v stored
    | _ => cases flat

/-- The sum of multiples of two expressions. -/
def combination (a b : Rat) (f g : Expr) : Except Fault Expr := do add (← mul (number a) f) (← mul (number b) g)

theorem combination_eq (nonzeroA : k ≠ 0) (nonzeroB : l ≠ 0) (f g : Expr) :
    combination k l f g = add (f.scale k) (g.scale l) := by
  rw [combination, number_mul nonzeroA, number_mul nonzeroB]
  rfl

/-- No term of one expression is alike to a term of the other. -/
def Unlike (f g : Expr) : Prop := ∀ u ∈ f.spreadTerms, ∀ v ∈ g.spreadTerms, u.termKey ≠ v.termKey

instance (f g : Expr) : Decidable (Unlike f g) :=
  inferInstanceAs (Decidable (∀ u ∈ f.spreadTerms, ∀ v ∈ g.spreadTerms, u.termKey ≠ v.termKey))

theorem summands_scale_eq_map (formed : e.WellFormed) (nonzero : k ≠ 0) :
    (e.scale k).summands = e.summands.map fun u => u.scale k := by
  rw [summands_scale formed nonzero]
  exact List.map_congr_left fun u _ => (scale_of_ne u nonzero).symm

/-- A combination of two expressions without like terms is a sum, of the multiples of all terms. -/
theorem spreadTerms_combination (tidyF : Tidy f) (tidyG : Tidy g) (insideF : f.contains t = true)
    (insideG : g.contains t = true) (apart : Unlike f g) (nonzeroK : k ≠ 0) (nonzeroL : l ≠ 0)
    (returned : combination k l f g = .ok h) :
    h.contains t = true ∧
      h.spreadTerms.Perm (f.spreadTerms.map (fun u => u.scale k) ++ g.spreadTerms.map fun u => u.scale l) := by
  rw [combination_eq nonzeroK nonzeroL] at returned
  have termsF := summands_scale_eq_map tidyF.formed nonzeroK
  have termsG := summands_scale_eq_map tidyG.formed nonzeroL
  have distinct : (((f.scale k).summands ++ (g.scale l).summands).map termKey).Nodup := by
    rw [List.map_append]
    refine (tidyF.formed.scale k).distinct_summands.append (tidyG.formed.scale l).distinct_summands ?_
    intro key inF inG
    rw [termsF, List.map_map] at inF
    rw [termsG, List.map_map] at inG
    obtain ⟨u, memberU, rfl⟩ := List.mem_map.mp inF
    obtain ⟨v, memberV, same⟩ := List.mem_map.mp inG
    refine apart u ((spreadTerms_perm f).mem_iff.mpr memberU) v ((spreadTerms_perm g).mem_iff.mpr memberV) ?_
    simpa [scale_of_ne _ nonzeroK, scale_of_ne _ nonzeroL] using same.symm
  obtain ⟨-, terms⟩ := summands_add_of_distinct (tidyF.isReduced.scale nonzeroK) (tidyG.isReduced.scale nonzeroL)
    ((isZero_scale nonzeroK f).trans (isZero_of_contains insideF))
    ((isZero_scale nonzeroL g).trans (isZero_of_contains insideG)) distinct returned
  refine ⟨?_, (spreadTerms_perm h).trans ?_⟩
  · obtain ⟨u, member, inside⟩ := contains_iff_summands.mp ((contains_scale nonzeroK f t).trans insideF)
    exact contains_iff_summands.mpr ⟨u, terms ▸ List.mem_append_left _ member, inside⟩
  · rw [terms, termsF, termsG]
    exact (((spreadTerms_perm f).map _).append ((spreadTerms_perm g).map _)).symm

theorem stripCoefficient_scale (formed : e.WellFormed) (nonzero : k ≠ 0) (x : String) :
    stripCoefficient (e.scale k) x = (stripCoefficient e x).map fun parts => (parts.1.scale k, parts.2) := by
  unfold stripCoefficient
  rw [checkOpen_of_wellFormed formed, checkOpen_of_wellFormed (formed.scale k), contains_scale nonzero]
  cases inside : e.contains x with
  | false => rfl
  | true =>
    rw [scale_of_ne e nonzero]
    cases e with
    | number => cases inside
    | foreign => exact formed.elim
    | product c factors =>
      have each : ∀ f ∈ factors.filter fun f => !f.contains x, f.WellFormed := fun f kept =>
        allWellFormed_iff.mp formed.2.2 f (List.mem_of_mem_filter kept)
      have coefficient := mulAll_scale (a := number c) trivial each nonzero
      rw [scale_of_ne _ nonzero] at coefficient
      change (mulAll ((number c).withCoeff ((number c).coeff * k)) _ >>= _) = Except.map _ (mulAll (number c) _ >>= _)
      rw [coefficient]
      cases mulAll (number c) (factors.filter fun f => !f.contains x) with
      | error => rfl
      | ok =>
        change (mulAll one _ >>= _) = Except.map _ (mulAll one _ >>= _)
        cases mulAll one (factors.filter fun f => f.contains x) <;> rfl
    | _ => exact congrArg (fun first : Expr => Except.ok (first, _)) (scale_of_ne (number _) nonzero).symm

/-- The second expression is the multiple of the first one, which is tidy. -/
def IsMultiple (k : Rat) (r u : Expr) : Prop := u = r.scale k ∧ Tidy r

theorem related_scale {x : Except Fault Expr} (tidies : Tidies x) (k : Rat) :
    Related (IsMultiple k) (liftM x) (liftM (x.map fun r => r.scale k)) := by
  refine .lift ?_
  cases x with
  | error => exact .inl rfl
  | ok r => exact ⟨rfl, tidies r rfl⟩

theorem related_mul (tidyA : Tidy a) (tidyB : Tidy b) (nonzero : k ≠ 0) :
    Related (IsMultiple k) (liftM (mul a b)) (liftM (mul (a.scale k) b)) := by
  rw [mul_scale tidyA.formed tidyB.formed nonzero]
  exact related_scale (tidyA.mul tidyB) k

/-- The transform of a multiple is the multiple of the transform, however many levels are left. -/
theorem related_multiple (tidy : Tidy e) (flat : e.isPlainSum = false) (nonzero : k ≠ 0)
    (namedT : Identifier t) (namedS : Identifier s) (n m : ℕ) :
    Related (IsMultiple k) (laplaceWithin n e t s) (laplaceWithin m (e.scale k) t s) := by
  have unsupported : IsLimit .unsupported := .inr (.inr rfl)
  cases n with
  | zero => exact .of_limit_left unsupported _
  | succ n =>
    cases m with
    | zero => exact .of_limit_right unsupported _
    | succ m =>
      refine Related.bind Alike.poll fun _ _ _ => ?_
      rw [checkOpen_of_wellFormed tidy.formed, checkOpen_of_wellFormed (tidy.formed.scale k)]
      refine Related.lift_bind fun _ _ => ?_
      rw [contains_scale nonzero, isPlainSum_scale nonzero, flat]
      split
      · rw [div_scale tidy.formed (Tidy.bare namedS).formed nonzero]
        exact related_scale (tidy.div (.bare namedS)) k
      rw [if_neg Bool.false_ne_true, if_neg Bool.false_ne_true, stripCoefficient_scale tidy.formed nonzero,
        lift_map_bind]
      refine Related.lift_bind fun parts stripped => ?_
      obtain ⟨tidyCoefficient, tidyRest⟩ : Tidy parts.1 ∧ Tidy parts.2 := tidy.stripCoefficient t parts stripped
      -- Both runs apply the rules to the same rest.
      refine Related.bind (tidyRest.laplaceByRule (alikeTransformers n m) namedT namedS) ?_
      rintro _ result? ⟨rfl, tidyResult⟩
      cases result? with
      | some result => exact related_mul tidyCoefficient (tidy_answer tidyRest tidyResult namedT namedS) nonzero
      | none =>
        refine Related.bind (tidyRest.laplaceByIntegration namedT namedS) ?_
        rintro _ result? ⟨rfl, tidyResult⟩
        exact related_mul tidyCoefficient (tidy_answer tidyRest tidyResult namedT namedS) nonzero

/-- In the context, the expression is transformed to the other one on some level. -/
def Transforms (c : Context) (t s : String) (e r : Expr) : Prop := ∃ n, Gives c (laplaceWithin n e t s) r

/-- The transform of a sum is the sum of the transforms of its terms. -/
theorem Transforms.terms (inside : e.contains t = true) (transforms : Transforms c t s e r) :
    ∃ rs, List.Forall₂ (Transforms c t s) e.spreadTerms rs ∧ addAll zero rs = .ok r := by
  by_cases plain : e.isPlainSum = true
  · obtain ⟨_ | n, gives⟩ := transforms
    · obtain ⟨looks, answer⟩ := gives
      cases answer
    have returns : Returns c (laplaceWithin (n + 1) e t s) fun r => ∃ rs,
        List.Forall₂ (fun u v => Gives c (laplaceWithin n u t s) v) e.spreadTerms rs ∧ addAll zero rs = .ok r := by
      refine Meets.bind _ (Meets.anyway poll) fun _ _ => Meets.bind _ (Meets.anyway _) fun _ _ => ?_
      rw [inside, Bool.not_true, if_neg Bool.false_ne_true, if_pos plain]
      exact returns_foldlM_gives _ add _ _
    obtain ⟨rs, each, total⟩ := returns.of_gives gives
    exact ⟨rs, each.imp fun _ _ gives => ⟨n, gives⟩, total⟩
  · rw [spreadTerms_of_flat (Bool.eq_false_iff.mpr plain)]
    exact ⟨[r], .cons transforms .nil, rfl⟩

/-- Expressions that the rules are applied to as a whole. -/
def AllSingle (es : List Expr) : Prop := ∀ e ∈ es, Tidy e ∧ e.isPlainSum = false

theorem Tidy.allSingle (tidy : Tidy e) : AllSingle e.spreadTerms := fun u member =>
  ⟨tidy.spreadTerms u member, flat_of_mem_spreadTerms tidy.formed member⟩

theorem Transforms.multiples {es rs us : List Expr} (twins : Twins c d) (namedT : Identifier t)
    (namedS : Identifier s) (nonzero : k ≠ 0) (single : AllSingle es)
    (transforms : List.Forall₂ (Transforms c t s) es rs)
    (scaled : List.Forall₂ (Transforms d t s) (es.map fun e => e.scale k) us) :
    us = rs.map (fun r => r.scale k) ∧ ∀ r ∈ rs, Tidy r := by
  induction transforms generalizing us with
  | nil =>
    cases scaled
    exact ⟨rfl, by simp⟩
  | @cons e r es rs first _ ih =>
    obtain ⟨n, gives⟩ := first
    obtain ⟨⟨tidy, flat⟩, later⟩ := List.forall_mem_cons.mp single
    rw [List.map_cons] at scaled
    cases scaled with
    | cons other others =>
      obtain ⟨m, reply⟩ := other
      obtain ⟨rfl, tidyR⟩ := (related_multiple tidy flat nonzero namedT namedS n m).of_gives twins gives reply
      obtain ⟨rfl, rest⟩ := ih later others
      exact ⟨rfl, List.forall_mem_cons.mpr ⟨tidyR, rest⟩⟩

/-- The transforms of the multiples of two lists in any order, and the multiples of their transforms. -/
theorem Transforms.combination {c₁ c₂ d : Context} {es₁ es₂ fs gs us hs : List Expr} (twins₁ : Twins c₁ d)
    (twins₂ : Twins c₂ d) (namedT : Identifier t) (namedS : Identifier s) (nonzeroK : k ≠ 0) (nonzeroL : l ≠ 0)
    (single₁ : AllSingle es₁) (single₂ : AllSingle es₂) (each₁ : List.Forall₂ (Transforms c₁ t s) es₁ fs)
    (each₂ : List.Forall₂ (Transforms c₂ t s) es₂ gs) (each : List.Forall₂ (Transforms d t s) us hs)
    (perm : us.Perm (es₁.map (fun e => e.scale k) ++ es₂.map fun e => e.scale l)) :
    hs.Perm (fs.map (fun r => r.scale k) ++ gs.map fun r => r.scale l) ∧
      (∀ r ∈ fs, Tidy r) ∧ ∀ r ∈ gs, Tidy r := by
  obtain ⟨rs, inOrder, reordered⟩ := List.perm_comp_forall₂ perm.symm each
  obtain ⟨first, tidyFs⟩ := Transforms.multiples twins₁ namedT namedS nonzeroK single₁ each₁
    (List.forall₂_take_append _ _ _ inOrder.flip).flip
  obtain ⟨second, tidyGs⟩ := Transforms.multiples twins₂ namedT namedS nonzeroL single₂ each₂
    (List.forall₂_drop_append _ _ _ inOrder.flip).flip
  refine ⟨?_, tidyFs, tidyGs⟩
  rw [← first, ← second, List.take_append_drop]
  exact reordered.symm

theorem exists_transforms {scope : Scope} (returned : runIn scope (e.laplace t s) = .ok r) :
    ∃ guard, Transforms ⟨scope.inBlock guard, callWithin maxCallDepth⟩ t s e r := by
  obtain ⟨guard, gives⟩ := (returns_guarded (c := ⟨scope, callWithin maxCallDepth⟩) _).of_gives ⟨0, returned⟩
  exact ⟨guard, _, gives⟩

/-- The Laplace transform is linear. The three transforms may be taken at any times and under any deadlines,
as long as the session is the same. -/
theorem laplace_linear {a b : Rat} {f g h F G H : Expr} {t s : String} {scopeF scopeG scopeH : Scope}
    (sessionG : scopeF.Matches scopeG) (sessionH : scopeF.Matches scopeH) (tidyF : Tidy f) (tidyG : Tidy g)
    (namedT : Identifier t) (namedS : Identifier s) (insideF : f.contains t = true) (insideG : g.contains t = true)
    (apart : Unlike f g) (nonzeroA : a ≠ 0) (nonzeroB : b ≠ 0) (combined : combination a b f g = .ok h)
    (transformF : runIn scopeF (f.laplace t s) = .ok F) (transformG : runIn scopeG (g.laplace t s) = .ok G)
    (transformH : runIn scopeH (h.laplace t s) = .ok H) :
    ∃ r, combination a b F G = .ok r ∧ H.render = r.render := by
  obtain ⟨insideH, perm⟩ := spreadTerms_combination tidyF tidyG insideF insideG apart nonzeroA nonzeroB combined
  obtain ⟨guardF, transformsF⟩ := exists_transforms transformF
  obtain ⟨guardG, transformsG⟩ := exists_transforms transformG
  obtain ⟨guardH, transformsH⟩ := exists_transforms transformH
  obtain ⟨fs, eachF, totalF⟩ := transformsF.terms insideF
  obtain ⟨gs, eachG, totalG⟩ := transformsG.terms insideG
  obtain ⟨hs, eachH, totalH⟩ := transformsH.terms insideH
  obtain ⟨parts, tidyFs, tidyGs⟩ := Transforms.combination
    (twins_callWithin (sessionH.inBlock guardF guardH) _ _)
    (twins_callWithin ((sessionG.together sessionH).inBlock guardG guardH) _ _)
    namedT namedS nonzeroA nonzeroB tidyF.allSingle tidyG.allSingle eachF eachG eachH perm
  have reduced : ∀ r ∈ hs, IsReduced r := by
    intro r member
    rcases List.mem_append.mp (parts.mem_iff.mp member) with inside | inside
    · obtain ⟨u, there, rfl⟩ := List.mem_map.mp inside
      exact ((tidyFs u there).scale a).isReduced
    · obtain ⟨u, there, rfl⟩ := List.mem_map.mp inside
      exact ((tidyGs u there).scale b).isReduced
  have sumF := SumOf.of_addAll (fun r member => (tidyFs r member).isReduced) totalF
  have sumG := SumOf.of_addAll (fun r member => (tidyGs r member).isReduced) totalG
  rw [combination_eq nonzeroA nonzeroB]
  exact sumF.combination sumG (.of_addAll reduced totalH) (fun r member => (tidyFs r member).formed)
    (fun r member => (tidyGs r member).formed) nonzeroA nonzeroB parts

/-- The texts of the transform of a combination and of the combination of the transforms. -/
def transformTexts (scope : Scope) (a b : Rat) (f g : Expr) (t s : String) :
    Except Fault (Option String × Option String) := do
  let h ← combination a b f g
  let F ← runIn scope (f.laplace t s)
  let G ← runIn scope (g.laplace t s)
  let H ← runIn scope (h.laplace t s)
  return (H.render.toOption, (combination a b F G >>= render).toOption)

theorem exists_of_transformTexts {scope : Scope} {texts : Option String × Option String}
    (written : (transformTexts scope k l f g t s).toOption = some texts) :
    ∃ h F G H, combination k l f g = .ok h ∧ runIn scope (f.laplace t s) = .ok F ∧
      runIn scope (g.laplace t s) = .ok G ∧ runIn scope (h.laplace t s) = .ok H ∧
      H.render.toOption = texts.1 ∧ (combination k l F G >>= render).toOption = texts.2 := by
  obtain ⟨h, combined, returned⟩ := Outcome.bind_ok (Outcome.ok_of_toOption written)
  obtain ⟨F, transformF, returned⟩ := Outcome.bind_ok returned
  obtain ⟨G, transformG, returned⟩ := Outcome.bind_ok returned
  obtain ⟨H, transformH, returned⟩ := Outcome.bind_ok returned
  cases returned
  exact ⟨h, F, G, H, combined, transformF, transformG, transformH, rfl, rfl⟩

/-- A damped ramp and a sine on the one hand, a square on the other. -/
theorem laplace_linear_of_damped_ramp :
    let scope := Session.initial.scope
    let f := sum 1 [product 2 [bare "t", exponential 1 (bare "e") (symbol (-3) "t" 1)], call 1 "sin" [bare "t"] 1] 1
    let g := symbol 1 "t" 2
    Tidy f ∧ Tidy g ∧ Unlike f g ∧ ∃ h F G H r, combination (3 / 2) (-5) f g = .ok h ∧
      runIn scope (f.laplace "t" "s") = .ok F ∧ runIn scope (g.laplace "t" "s") = .ok G ∧
      runIn scope (h.laplace "t" "s") = .ok H ∧ combination (3 / 2) (-5) F G = .ok r ∧ H.render = r.render := by
  intro scope f g
  have tidyF : Tidy f := by decide +kernel
  have tidyG : Tidy g := by decide +kernel
  have apart : Unlike f g := by decide +kernel
  have texts : (transformTexts scope (3 / 2) (-5) f g "t" "s").toOption =
      some (some "3/(s+3)^2+3/(2*(s^2+1))-10/s^3", some "3/(s+3)^2+3/(2*(s^2+1))-10/s^3") := by decide +kernel
  obtain ⟨h, F, G, H, combined, transformF, transformG, transformH, -⟩ := exists_of_transformTexts texts
  have same : scope.Matches scope := ⟨rfl, rfl, rfl, soundFunctions_builtin⟩
  obtain ⟨r, added, written⟩ := laplace_linear same same tidyF tidyG (by decide) (by decide) (by decide) (by decide)
    apart (by decide +kernel) (by decide +kernel) combined transformF transformG transformH
  exact ⟨tidyF, tidyG, apart, h, F, G, H, r, combined, transformF, transformG, transformH, added, written⟩

/-- The transform of the combination is written like the combination of the transforms, where all of them
return. -/
def CombinesTransforms (scope : Scope) (a b : Rat) (f g : Expr) (t s : String) : Prop :=
  ∀ h F G H, combination a b f g = .ok h → runIn scope (f.laplace t s) = .ok F →
    runIn scope (g.laplace t s) = .ok G → runIn scope (h.laplace t s) = .ok H →
    ∃ text, H.render = .ok text ∧ (combination a b F G >>= render) = .ok text

theorem not_combinesTransforms {scope : Scope} {texts : Option String × Option String}
    (written : (transformTexts scope k l f g t s).toOption = some texts)
    (differ : texts.1 = none ∨ texts.1 ≠ texts.2) : ¬ CombinesTransforms scope k l f g t s := by
  intro combines
  obtain ⟨h, F, G, H, combined, transformF, transformG, transformH, textH, textSum⟩ :=
    exists_of_transformTexts written
  obtain ⟨text, same, other⟩ := combines h F G H combined transformF transformG transformH
  rw [same] at textH
  rw [other] at textSum
  rcases differ with none | differ
  · rw [none] at textH
    cases textH
  · exact differ (textH.symm.trans textSum)

/-- Where the transform of a combination is not written like the combination: where the integers are too
long to be written, and where a zero that stands among the terms of a sum is lost in one of them only. -/
theorem laplace_not_linear :
    let scope := Session.initial.scope
    let withZero := sum 1 [bare "k", number 0] 1
    let f := product (1 / 24) [withZero, symbol 1 "s" 5, symbol 1 "t" 4]
    let g := sum (-1 / 2) [product (-2) [symbol 1 "s" 2, bare "t", bare "y"],
      product 1 [symbol 1 "s" 3, symbol 1 "t" 2, bare "y"]] 1
    ((symbol (10 ^ 2200) "t" 1).WellFormed ∧ (symbol 1 "t" 2).WellFormed ∧
      Unlike (symbol (10 ^ 2200) "t" 1) (symbol 1 "t" 2) ∧
      ¬ CombinesTransforms scope (10 ^ 2200) 1 (symbol (10 ^ 2200) "t" 1) (symbol 1 "t" 2) "t" "s") ∧
    f.WellFormed ∧ g.WellFormed ∧ f.contains "t" = true ∧ g.contains "t" = true ∧ Unlike f g ∧
      ¬ CombinesTransforms scope 1 1 f g "t" "s" := by
  intro scope withZero f g
  have long : (transformTexts scope (10 ^ 2200) 1 (symbol (10 ^ 2200) "t" 1) (symbol 1 "t" 2) "t" "s").toOption =
      some (none, none) := by decide +kernel
  have lost : (transformTexts scope 1 1 f g "t" "s").toOption = some (some "k", some "k+0") := by decide +kernel
  refine ⟨⟨by decide +kernel, by decide +kernel, by decide +kernel, not_combinesTransforms long (.inl rfl)⟩,
    by decide +kernel, by decide +kernel, by decide +kernel, by decide +kernel, by decide +kernel,
    not_combinesTransforms lost (.inr ?_)⟩
  decide

end Expr
end ExactAlgebra
