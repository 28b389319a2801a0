import ExactAlgebra.Proofs.MultiplicationValue
import Mathlib

/-! Factors with keys of their own. Where no two factors are alike nothing merges: a product has the
factors of both sides, and a quotient those above the line and the inverses of those below it. -/
namespace ExactAlgebra.Expr

/-- Plain factors, each of which can be looked up by a key of its own. -/
structure Separate (scheme : Scheme) (factors : List Expr) : Prop where
  plain : ∀ f ∈ factors, PlainFactor scheme f
  keyed : ∀ f ∈ factors, f.hasBaseKey = true
  distinct : (factors.map baseKey).Nodup

/-- The factor on the other side of the line. -/
def inverted (f : Expr) : Expr := f.withPower (f.power * -1)

variable {scheme : Scheme} {fs gs : List Expr} {k l : Rat}

theorem map_baseKey_inverted (gs : List Expr) : (gs.map inverted).map baseKey = gs.map baseKey := by
  rw [List.map_map]
  exact List.map_congr_left fun g _ => baseKey_withPower g _

theorem withCoeff_ofFactors (nonzeroK : k ≠ 0) (nonzeroL : l ≠ 0) :
    (ofFactors fs k).withCoeff l = ofFactors fs l := by
  unfold ofFactors
  rw [if_neg nonzeroK, if_neg nonzeroL]
  match fs with
  | [] => rfl
  | [f] => exact withCoeff_withCoeff f k l
  | f :: g :: rest => rfl

theorem isZero_ofFactors (nonzero : k ≠ 0) (proper : ∀ f ∈ fs, f.WellFormed ∧ IsFactor f) :
    (ofFactors fs k).isZero = false := by
  obtain ⟨_, coeff, _⟩ := factors_ofFactors nonzero proper
  rw [Bool.eq_false_iff]
  intro none
  rw [eq_zero_of_isZero none] at coeff
  exact nonzero coeff.symm

theorem neg_ofFactors (nonzero : k ≠ 0) (proper : ∀ f ∈ fs, f.WellFormed ∧ IsFactor f) :
    (ofFactors fs k).neg = ofFactors fs (-k) := by
  rw [neg, (factors_ofFactors nonzero proper).2.1, withCoeff_ofFactors nonzero (neg_ne_zero.mpr nonzero)]

theorem scale_ofFactors (nonzeroK : k ≠ 0) (nonzeroL : l ≠ 0)
    (proper : ∀ f ∈ fs, f.WellFormed ∧ IsFactor f) : (ofFactors fs k).scale l = ofFactors fs (k * l) := by
  rw [scale, if_neg nonzeroL, (factors_ofFactors nonzeroK proper).2.1,
    withCoeff_ofFactors nonzeroK (mul_ne_zero nonzeroK nonzeroL)]

theorem mulWithin_number_right (n : Nat) {a : Expr} (number : a.isNumber = false) (nonzero : k ≠ 0) :
    mulWithin (n + 1) a (.number k) = .ok (a.scale k) := by
  have someA : a.isZero = false := by
    cases a with
    | number => cases number
    | _ => rfl
  have someK : (Expr.number k).isZero = false := by simp [isZero, nonzero]
  unfold mulWithin
  rw [someA, someK]
  cases a with
  | number => cases number
  | _ => rfl

namespace Assorted

theorem wellFormed (assorted : Assorted fs) (k : Rat) : (ofFactors fs k).WellFormed := by
  have merged : Merged (fs.map fun f => (f.baseKey, f)) := by
    refine ⟨fun item member => ?_, ?_, fun item member => ?_⟩
    · obtain ⟨f, inside, rfl⟩ := List.mem_map.mp member
      exact ⟨rfl, assorted.keyed f inside⟩
    · simpa only [List.map_map, Function.comp_def] using assorted.distinct
    · obtain ⟨f, inside, rfl⟩ := List.mem_map.mp member
      exact assorted.proper f inside
  simpa only [List.map_map, Function.comp_def, List.map_id'] using merged.ofFactors k

/-- Products of factors that are not alike multiply to all of them. -/
theorem mul (assorted : Assorted (fs ++ gs)) (nonzeroK : k ≠ 0) (nonzeroL : l ≠ 0) :
    ∃ after, Expr.mul (ofFactors fs k) (ofFactors gs l) = .ok (ofFactors after (k * l)) ∧
      after.Perm (fs ++ gs) := by
  obtain ⟨permA, coeffA, numberA⟩ := factors_ofFactors nonzeroK assorted.left.proper
  obtain ⟨permB, coeffB, numberB⟩ := factors_ofFactors nonzeroL assorted.right.proper
  have work : 2 * ((ofFactors fs k).factors.length + (ofFactors gs l).factors.length) + 5 ≤
      workLimit (ofFactors fs k) (ofFactors gs l) := enough_work
  obtain ⟨n, limit⟩ : ∃ n, workLimit (ofFactors fs k) (ofFactors gs l) = n + 1 :=
    ⟨workLimit (ofFactors fs k) (ofFactors gs l) - 1, by omega⟩
  rw [Expr.mul, limit]
  cases left : (ofFactors fs k).isNumber with
  | true =>
    obtain rfl := numberA left
    refine ⟨gs, ?_, .refl _⟩
    rw [ofFactors_nil nonzeroK, mulWithin_number n nonzeroK (isZero_ofFactors nonzeroL assorted.right.proper),
      scale_ofFactors nonzeroL nonzeroK assorted.right.proper, mul_comm]
  | false =>
    cases right : (ofFactors gs l).isNumber with
    | true =>
      obtain rfl := numberB right
      refine ⟨fs, ?_, by rw [List.append_nil]⟩
      rw [ofFactors_nil nonzeroL, mulWithin_number_right n left nonzeroL,
        scale_ofFactors nonzeroK nonzeroL assorted.left.proper]
    | false =>
      have both := permA.append permB
      have product := mulWithin_distinct left right (n := n) (by omega)
        (fun f member => assorted.keyed f (both.mem_iff.mp member))
        ((both.map baseKey).nodup_iff.mpr assorted.distinct)
      rw [coeffA, coeffB] at product
      exact ⟨_, product, both⟩

end Assorted

section Powers

variable {a : Expr} {p : Rat} (formed : a.WellFormed) (built : BuiltBy scheme a)
  (number : a.isNumber = false) (product : a.isProduct = false) (whole : p.den = 1) (zero : p ≠ 0)
  (one : p ≠ 1) (small : ¬ tooLarge a.coeff p)
include formed built number product whole zero one small

theorem powRat_base :
    powRat a p = .ok ((a.withPower (a.power * p)).withCoeff (a.coeff ^ p.num)) := by
  have work : a.factors.length + 5 ≤ workLimit a a := enough_work_pow
  obtain ⟨n, limit⟩ : ∃ n, workLimit a a = n + 2 := ⟨workLimit a a - 2, by omega⟩
  rw [powRat, limit, powRatWithin_base n formed built number product whole zero one, if_neg small]

theorem pow_base :
    pow a (.number p) = .ok ((a.withPower (a.power * p)).withCoeff (a.coeff ^ p.num)) := by
  have work : a.factors.length + 5 ≤ workLimit a (.number p) := enough_work_pow
  obtain ⟨n, limit⟩ : ∃ n, workLimit a (.number p) = n + 3 := ⟨workLimit a (.number p) - 3, by omega⟩
  rw [pow, limit, powWithin, powRatWithin_base n formed built number product whole zero one, if_neg small]

end Powers

namespace Separate

theorem perm (separate : Separate scheme fs) (same : fs.Perm gs) : Separate scheme gs where
  plain f member := separate.plain f (same.mem_iff.mpr member)
  keyed f member := separate.keyed f (same.mem_iff.mpr member)
  distinct := (same.map baseKey).nodup_iff.mp separate.distinct

theorem left (separate : Separate scheme (fs ++ gs)) : Separate scheme fs where
  plain f member := separate.plain f (List.mem_append_left _ member)
  keyed f member := separate.keyed f (List.mem_append_left _ member)
  distinct := by
    have distinct := separate.distinct
    rw [List.map_append] at distinct
    exact (List.nodup_append.mp distinct).1

theorem right (separate : Separate scheme (fs ++ gs)) : Separate scheme gs :=
  (separate.perm List.perm_append_comm).left

theorem assorted (separate : Separate scheme fs) : Assorted fs :=
  ⟨fun f member => (separate.plain f member).standing, separate.keyed, separate.distinct⟩

theorem wellFormed (separate : Separate scheme fs) (k : Rat) : (ofFactors fs k).WellFormed :=
  separate.assorted.wellFormed k

theorem built (separate : Separate scheme fs) (k : Rat) : BuiltBy scheme (ofFactors fs k) :=
  (BuiltBy.keptByProducts scheme).ofFactors (fun f member => (separate.plain f member).built) k

/-- Separate factors multiply to all of them. -/
theorem mul (separate : Separate scheme (fs ++ gs)) (nonzeroK : k ≠ 0) (nonzeroL : l ≠ 0) :
    ∃ after, Expr.mul (ofFactors fs k) (ofFactors gs l) = .ok (ofFactors after (k * l)) ∧
      after.Perm (fs ++ gs) :=
  separate.assorted.mul nonzeroK nonzeroL

section Quotients

variable (closed : ∀ q, scheme.powers q → scheme.powers (q * -1))
include closed

/-- The inverse of separate factors has their inverses. -/
theorem inv (separate : Separate scheme gs) (nonzero : l ≠ 0) (small : ¬ tooLarge l (-1)) :
    ∃ after, Expr.inv (ofFactors gs l) = .ok (ofFactors after l⁻¹) ∧
      after.Perm (gs.map Expr.inverted) := by
  have formed := separate.wellFormed l
  have built := separate.built l
  obtain ⟨_, coeff, _⟩ := factors_ofFactors nonzero separate.assorted.proper
  have work : (ofFactors gs l).factors.length + 5 ≤ workLimit (ofFactors gs l) (ofFactors gs l) :=
    enough_work_pow
  have power : l ^ (-1 : Rat).num = l⁻¹ := zpow_neg_one l
  match gs, separate with
  | [], _ =>
    refine ⟨[], ?_, .refl _⟩
    rw [ofFactors_nil nonzero, ofFactors_nil (inv_ne_zero nonzero), Expr.inv, Rational.invert,
      if_neg nonzero]
    rfl
  | [g], separate =>
    have plain := separate.plain g List.mem_cons_self
    have single : ofFactors [g] l = g.withCoeff l := if_neg nonzero
    rw [single] at formed built coeff
    refine ⟨[g.inverted], ?_, .refl _⟩
    have raised := powRat_base formed built (by rw [isNumber_withCoeff, plain.proper.notNumber])
      (by rw [isProduct_withCoeff, plain.proper.notProduct]) (p := -1) rfl (by decide) (by decide)
      (by rwa [coeff])
    rw [coeff, power] at raised
    have inverse : Expr.inv (g.withCoeff l) = powRat (g.withCoeff l) (-1) := by
      obtain ⟨name, q, rfl, _⟩ | ⟨terms, q, rfl, _⟩ := plain.cases
      · rfl
      · rfl
    have shape : ((g.withCoeff l).withPower ((g.withCoeff l).power * -1)).withCoeff l⁻¹ =
        g.inverted.withCoeff l⁻¹ := by
      obtain ⟨name, q, rfl, _⟩ | ⟨terms, q, rfl, _⟩ := plain.cases
      · rfl
      · rfl
    rw [single, inverse, raised, shape, ofFactors, if_neg (inv_ne_zero nonzero)]
  | f :: g :: rest, separate =>
    have several : 2 ≤ (f :: g :: rest).length := by simp
    have shape := ofFactors_several several nonzero
    rw [shape] at formed built work
    have count := (sortFactors_perm (f :: g :: rest)).length_eq
    simp only [Expr.factors, count] at work
    obtain ⟨n, limit⟩ : ∃ n, workLimit (product l (f :: g :: rest)) (product l (f :: g :: rest)) = n + 1 :=
      ⟨workLimit (product l (f :: g :: rest)) (product l (f :: g :: rest)) - 1, by omega⟩
    obtain ⟨after, raised, perm⟩ := (powRatWithin_product rfl (by decide) (by decide) closed formed
      built (n := n) (by omega)).2 small
    rw [power] at raised
    refine ⟨after, ?_, perm⟩
    have many : 2 ≤ after.length := by
      rw [perm.length_eq]
      simp
    rw [shape, ofFactors_several many (inv_ne_zero nonzero)]
    change powRat (product l (f :: g :: rest)) (-1) = _
    rw [powRat, limit, raised]

omit closed in
theorem of_inverted (plain : ∀ g ∈ gs, PlainFactor scheme g)
    (separate : Separate scheme (gs.map Expr.inverted)) : Separate scheme gs where
  plain := plain
  keyed g member := by
    have keyed := separate.keyed g.inverted (List.mem_map_of_mem member)
    rwa [Expr.inverted, hasBaseKey_withPower] at keyed
  distinct := map_baseKey_inverted gs ▸ separate.distinct

/-- A quotient has the factors above the line and the inverses of those below it. -/
theorem div (separate : Separate scheme (fs ++ gs.map Expr.inverted))
    (plain : ∀ g ∈ gs, PlainFactor scheme g) (nonzeroK : k ≠ 0) (nonzeroL : l ≠ 0)
    (small : ¬ tooLarge l (-1)) :
    ∃ after, Expr.div (ofFactors fs k) (ofFactors gs l) = .ok (ofFactors after (k / l)) ∧
      after.Perm (fs ++ gs.map Expr.inverted) := by
  have below : Separate scheme gs := of_inverted plain separate.right
  obtain ⟨inverse, inverted, permInverse⟩ := below.inv closed nonzeroL small
  have order : (fs ++ gs.map Expr.inverted).Perm (fs ++ inverse) := permInverse.symm.append_left fs
  obtain ⟨after, product, perm⟩ := (separate.perm order).mul nonzeroK (inv_ne_zero nonzeroL)
  refine ⟨after, ?_, perm.trans order.symm⟩
  rw [Expr.div, isZero_ofFactors nonzeroL fun g member => (plain g member).standing, if_neg Bool.false_ne_true, inverted,
    div_eq_mul_inv]
  exact product

end Quotients

end Separate

end ExactAlgebra.Expr
