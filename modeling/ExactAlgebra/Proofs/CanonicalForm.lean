import ExactAlgebra.Proofs.Composition
import ExactAlgebra.Proofs.RoundTrip
import ExactAlgebra.Proofs.Substitution
import Mathlib

/-! Canonical expressions. A rational function of which no term is zero is rebuilt to one that is written
alike, from the leaves on: its factors are not merged again and its terms are not collected again. So what a
text of arithmetic is read to is left as it is by canonicalization. -/
namespace ExactAlgebra

namespace Expr
open Engine

variable {scheme : Scheme} {e : Expr} {c p : Rat} {terms fs : List Expr}

/-- In every context, canonicalization returns an expression that is written like `e`. -/
def IsCanonical (e : Expr) : Prop :=
  ∀ context, Meets context (fun _ => False) e.canonicalize fun r =>
    Similar e r ∧ r.WellFormed ∧ BuiltBy .reduced r

/-- A whole power of a base has that power. -/
theorem PlainFactor.powRat_base {b : Expr} (plain : PlainFactor scheme b) (single : b.power = 1)
    (whole : p.den = 1) (nonzero : p ≠ 0) : powRat b p = .ok (b.withPower p) := by
  by_cases one : p = 1
  · have same : b.withPower 1 = b := by rw [← single, withPower_power]
    rw [one, powRat_one, same]
  · have unit := plain.proper.unit
    have small : ¬ tooLarge b.coeff p := fun large => absurd (unit ▸ large.1) (by decide)
    rw [Expr.powRat_base plain.formed plain.built plain.proper.notNumber plain.proper.notProduct whole nonzero one
      small, single, one_mul, unit, one_zpow]
    exact congrArg Except.ok (unit_of_coeff (by rw [coeff_withPower, unit]))

/-- What is written like the base of a factor is raised to what is written like the factor. -/
theorem Similar.powRat_scale {base b : Expr} (similar : Similar base b) (plain : PlainFactor .reduced b)
    (single : b.power = 1) (whole : p.den = 1) (nonzero : p ≠ 0) (scaled : c ≠ 0) (context : Context) :
    Meets context (fun _ => False) (do return (← b.powRat p).scale c) fun r =>
      Similar ((base.withPower p).withCoeff c) r ∧ r.WellFormed ∧ BuiltBy .reduced r := by
  have raised : PlainFactor .reduced (b.withPower p) := plain.withPower whole nonzero
  have shape : (b.withPower p).scale c = (b.withPower p).withCoeff c := by
    rw [scale, if_neg scaled, raised.proper.unit, one_mul]
  refine Meets.bind _ (Meets.of_ok (plain.powRat_base single whole nonzero)) ?_
  rintro _ rfl
  refine Meets.pure ⟨?_, raised.formed.scale c, raised.built.scale c⟩
  rw [shape]
  exact (similar.withPower p).withCoeff c

/-- A sum that has been computed so far, with the weights of its terms. -/
structure Weighs (w : String →₀ ℚ) (e : Expr) : Prop where
  reduced : IsReduced e
  keyed : IsKeyed e
  built : BuiltBy .reduced e
  weights : weights e = w

theorem weighs_zero : Weighs 0 zero where
  reduced := ⟨trivial, nofun⟩
  keyed t member := by
    obtain rfl := List.mem_singleton.mp member
    rfl
  built := .number 0
  weights := weights_of_isZero rfl

theorem Weighs.add {v w : String →₀ ℚ} {a b : Expr} (weighsA : Weighs v a) (weighsB : Weighs w b) :
    ∃ r, Expr.add a b = .ok r ∧ Weighs (v + w) r := by
  have leaves {property : Expr → Prop} (first : property a) (second : property b) :
      ∀ e ∈ (Bracketing.node (.leaf a) (.leaf b)).leaves, property e := by
    simpa [Bracketing.leaves] using ⟨first, second⟩
  obtain ⟨r, returned, keyed⟩ := Bracketing.total_keyed (leaves weighsA.reduced weighsB.reduced)
    (leaves weighsA.keyed weighsB.keyed)
  refine ⟨r, returned, weighsA.reduced.add weighsB.reduced returned, keyed, ?_, ?_⟩
  · exact (BuiltBy.keptByAddition Scheme.reduced_admitsSums).add weighsA.reduced.formed weighsB.reduced.formed
      weighsA.built weighsB.built returned
  · rw [weights_add weighsA.reduced.formed weighsB.reduced.formed returned, weighsA.weights, weighsB.weights]

theorem isCanonical_sum (formed : (sum c terms p).WellFormed) (built : BuiltBy .reduced (sum c terms p))
    (each : ∀ t ∈ terms, IsCanonical t) : IsCanonical (sum c terms p) := by
  obtain ⟨scaled, nonzero, normal, all⟩ := id formed
  have whole : p.den = 1 := by
    cases built with
    | sum _ _ whole => exact whole
  have plain : (sum 1 terms 1).WellFormed := ⟨one_ne_zero, one_ne_zero, formed.2.2⟩
  have plainBuilt : BuiltBy .reduced (sum 1 terms 1) := .sum built.terms built.shares rfl
  intro context
  have total : Meets context (fun _ => False)
      (terms.foldlM (fun total t => do Expr.add total (← rebuild (fun _ => none) t)) zero)
      (Weighs (0 + (terms.map fun t => Finsupp.single t.termKey t.coeff).sum)) := by
    refine Meets.foldlM_sum Weighs _ weighs_zero fun w total weighs t member => ?_
    refine Meets.bind _ (each t member context) fun r ⟨similar, formedR, builtR⟩ => ?_
    have again : Similar (t.withCoeff t.coeff) r := (withCoeff_coeff t).symm ▸ similar
    obtain ⟨reduced, keyed, weights⟩ := reduced_of_similar (allWellFormed_iff.mp all t member)
      (normal.flat t member) (normal.keyed t member) (built.shares t member) again formedR
    obtain ⟨next, returned, holds⟩ := weighs.add ⟨reduced, keyed, builtR, weights⟩
    refine (Meets.of_ok returned).imp ?_
    rintro _ rfl
    exact holds
  rw [canonicalize, rebuild, rebuildSum_eq]
  refine Meets.bind _ total fun inner weighs => ?_
  have similar : Similar (sum 1 terms 1) inner := by
    refine similar_of_weights (isReduced_plain plain plainBuilt) weighs.reduced (isKeyed_plain plain) weighs.keyed ?_
    rw [weighs.weights, weights_plain plain, zero_add]
    simp only [mul_one]
  have base : PlainFactor .reduced inner :=
    ⟨weighs.reduced.formed, ⟨similar.coeff.symm, similar.isNumber.symm, similar.isProduct.symm⟩, weighs.built⟩
  exact similar.powRat_scale base similar.power.symm whole nonzero scaled context

/-- A factor that is written alike may stand for another. -/
theorem Separate.replace {f g : Expr} (separate : Separate scheme (f :: fs)) (plain : PlainFactor scheme g)
    (similar : Similar f g) : Separate scheme (g :: fs) := by
  obtain ⟨plainAll, keyed, distinct⟩ := separate
  simp only [List.forall_mem_cons, List.map_cons] at plainAll keyed distinct
  refine ⟨List.forall_mem_cons.mpr ⟨plain, plainAll.2⟩, List.forall_mem_cons.mpr ⟨?_, keyed.2⟩, ?_⟩
  · rw [hasBaseKey, ← similar.face]
    exact keyed.1
  · rw [List.map_cons, baseKey, ← similar.face]
    exact distinct

theorem Similars.concat {as bs next : List Expr} {f g : Expr} (similars : Similars as bs) (similar : Similar f g)
    (perm : next.Perm (bs ++ [g])) : Similars (as ++ [f]) next := by
  obtain ⟨cs, each, order⟩ := similars
  exact ⟨cs ++ [g], List.rel_append each (.cons similar .nil), (order.append_right [g]).trans perm.symm⟩

/-- Separate factors that are rebuilt and multiplied one after another are still there in the end. -/
theorem meets_rebuildProduct {done after : List Expr} (similars : Similars done after)
    (separate : Separate .reduced (after ++ fs)) (each : ∀ f ∈ fs, IsCanonical f) (nonzero : c ≠ 0)
    (context : Context) :
    Meets context (fun _ => False)
      (fs.foldlM (fun result f => do mul result (← rebuild (fun _ => none) f)) (ofFactors after c)) fun r =>
        ∃ all, r = ofFactors all c ∧ Similars (done ++ fs) all ∧ Separate .reduced all := by
  induction fs generalizing done after with
  | nil =>
    rw [List.append_nil] at separate
    exact Meets.pure ⟨after, rfl, by rwa [List.append_nil], separate⟩
  | cons f fs ih =>
    have step : Meets context (fun _ => False)
        (do mul (ofFactors after c) (← rebuild (fun _ => none) f)) fun r =>
          ∃ next, r = ofFactors next c ∧ Similars (done ++ [f]) next ∧ Separate .reduced (next ++ fs) := by
      refine Meets.bind _ (each f List.mem_cons_self context) fun g ⟨similar, formed, built⟩ => ?_
      have proper := (separate.plain f (by simp)).proper
      have plain : PlainFactor .reduced g := ⟨formed, ⟨similar.coeff ▸ proper.unit,
        similar.isNumber ▸ proper.notNumber, similar.isProduct ▸ proper.notProduct⟩, built⟩
      have order : (g :: (after ++ fs)).Perm (after ++ [g] ++ fs) := by
        rw [List.append_assoc, List.singleton_append]
        exact List.perm_middle.symm
      have replaced := ((separate.perm List.perm_middle).replace plain similar).perm order
      have single : ofFactors [g] 1 = g := by
        rw [ofFactors, if_neg one_ne_zero]
        exact unit_of_coeff plain.proper.unit
      obtain ⟨next, returned, perm⟩ := replaced.left.mul nonzero one_ne_zero
      rw [single, mul_one] at returned
      refine (Meets.of_ok returned).imp ?_
      rintro _ rfl
      exact ⟨next, rfl, similars.concat similar perm, replaced.perm (perm.symm.append_right fs)⟩
    rw [List.foldlM_cons]
    refine Meets.bind _ step ?_
    rintro _ ⟨next, rfl, similarsNext, separateNext⟩
    refine (ih similarsNext separateNext fun g later => each g (List.mem_cons_of_mem _ later)).imp ?_
    rintro r ⟨all, rfl, similarsAll, separateAll⟩
    rw [List.append_assoc] at similarsAll
    exact ⟨all, rfl, similarsAll, separateAll⟩

theorem isCanonical_product (formed : (product c fs).WellFormed) (built : BuiltBy .reduced (product c fs))
    (each : ∀ f ∈ fs, IsCanonical f) : IsCanonical (product c fs) := by
  intro context
  have assorted := Assorted.of_product formed
  have stored : ∀ f ∈ fs, PlainFactor .reduced f := fun f member =>
    plainFactor_factors formed built f ((sortFactors_perm fs).mem_iff.mpr member)
  have separate : Separate .reduced ([] ++ fs) := ⟨stored, assorted.keyed, assorted.distinct⟩
  have none : Similars [] [] := .of_perm (.refl _)
  have loop := meets_rebuildProduct none separate each formed.1 context
  rw [ofFactors_nil formed.1] at loop
  rw [canonicalize, rebuild, rebuildProduct_eq]
  refine loop.imp ?_
  rintro r ⟨all, rfl, similars, separateAll⟩
  refine ⟨?_, separateAll.wellFormed c, separateAll.built c⟩
  exact similar_ofFactors formed built (similars.perm_left (sortFactors_perm fs)) formed.1

/-- Rebuilding a rational function of which no term is zero changes nothing that is written. -/
theorem BuiltBy.isCanonical (built : BuiltBy .reduced e) (formed : e.WellFormed) : IsCanonical e := by
  induction built with
  | number c => exact fun context => Meets.pure ⟨.refl _, trivial, .number c⟩
  | @symbol c name p named whole =>
    intro context
    obtain ⟨scaled, nonzero, spelled, _⟩ := formed
    have other := (isVariableName_eq named).1
    have identifier := spelled.resolve_right (by rw [other]; exact Bool.false_ne_true)
    have kept : leafOf (fun _ => none) name = .ok (bare name) := by simp [leafOf, other]
    have base : PlainFactor .reduced (bare name) :=
      ⟨wellFormed_bare identifier other, ⟨rfl, rfl, rfl⟩, .symbol named rfl⟩
    rw [canonicalize, rebuild]
    refine Meets.bind _ (Meets.of_ok kept) ?_
    rintro _ rfl
    exact (Similar.refl (bare name)).powRat_scale base rfl whole nonzero scaled context
  | sum each shares whole ih =>
    exact isCanonical_sum formed (.sum each shares whole) fun t member =>
      ih t member (allWellFormed_iff.mp formed.2.2.2 t member)
  | product each ih =>
    exact isCanonical_product formed (.product each) fun f member =>
      ih f member (allWellFormed_iff.mp formed.2.2 f member)

end Expr

namespace Reader
open ExactAlgebra.Expr Engine

/-- Canonicalization returns what a text of arithmetic is read to with the same canonical text, and if that
cannot be written out, neither can what is returned. -/
theorem canonicalize_of_parse {text : String} {e : Expr} (arithmetic : IsArithmeticText text)
    (parsed : (Session.initial.parse text []).result = .ok (.expr e)) (scope : Scope) :
    ∃ r, runIn scope e.canonicalize = .ok r ∧ r.render = e.render := by
  obtain ⟨formed, built, _⟩ := arithmetic.isOrdinary parsed
  have reached := built.isCanonical formed ⟨scope, callWithin maxCallDepth⟩ 0
  unfold runIn
  cases outcome : (e.canonicalize ⟨scope, callWithin maxCallDepth⟩).run.run 0 with
  | mk result later =>
    rw [outcome] at reached
    cases result with
    | ok r => exact ⟨r, rfl, reached.1.render.symm⟩
    | error => exact reached.elim

end Reader

end ExactAlgebra
