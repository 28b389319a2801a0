import ExactAlgebra.Proofs.AdditionValue
import ExactAlgebra.Proofs.MultiplicationValue
import ExactAlgebra.Proofs.Similarity
import Mathlib

/-! Expressions as polynomials. An expression with positive whole powers denotes a polynomial over the
rationals, whose indeterminates are the names. One without sums denotes a monomial, and an expanded
one is a sum of monomials of which no two are alike, so its terms are those of the polynomial. -/
namespace ExactAlgebra

/-- Positive whole powers and any coefficients. -/
def Scheme.polynomial : Scheme where
  powers p := p.den = 1 ∧ 0 < p
  shares _ := True
  whole _ power := power.1
  one := ⟨rfl, one_pos⟩
  add _ _ powerP powerQ _ := ⟨Rational.add_den powerP.1 powerQ.1, add_pos powerP.2 powerQ.2⟩

theorem Scheme.polynomial_admitsSums : Scheme.polynomial.AdmitsSums := fun _ _ => trivial

/-- Positive whole powers and no sums. -/
def Scheme.monomial : Scheme := { Scheme.polynomial with shares := fun _ => False }

namespace Expr
open Reader
open MvPolynomial (C X)

mutual
/-- The polynomial for which an expression stands. Calls and exponentials stand for none. -/
noncomputable def denote : Expr → MvPolynomial String ℚ
  | number c => C c
  | symbol c name p => C c * X name ^ p.num.toNat
  | sum c terms p => C c * denoteSum terms ^ p.num.toNat
  | product c factors => C c * denoteProduct factors
  | call .. | exponential .. | foreign _ => 0

noncomputable def denoteSum : List Expr → MvPolynomial String ℚ
  | [] => 0
  | t :: ts => denote t + denoteSum ts

noncomputable def denoteProduct : List Expr → MvPolynomial String ℚ
  | [] => 1
  | f :: fs => denote f * denoteProduct fs
end

/-- A polynomial in normal form. -/
structure IsPolynomial (e : Expr) : Prop where
  formed : e.WellFormed
  built : BuiltBy .polynomial e

structure IsMonomial (e : Expr) : Prop where
  formed : e.WellFormed
  built : BuiltBy .monomial e

/-- A polynomial in normal form whose terms are monomials, none of them zero unless it is zero as a
whole. -/
structure Expanded (e : Expr) : Prop where
  formed : e.WellFormed
  built : ∀ t ∈ e.summands, BuiltBy .monomial t
  nonzero : e.isZero = false → ∀ t ∈ e.summands, t.coeff ≠ 0

theorem denoteSum_eq (terms : List Expr) : denoteSum terms = (terms.map denote).sum := by
  induction terms with
  | nil => rfl
  | cons t rest ih => simp [denoteSum, ih]

theorem denoteProduct_eq (factors : List Expr) :
    denoteProduct factors = (factors.map denote).prod := by
  induction factors with
  | nil => rfl
  | cons f rest ih => simp [denoteProduct, ih]

theorem denote_withCoeff (e : Expr) (c : Rat) : denote (e.withCoeff c) = C c * denote e.unit := by
  cases e <;> simp [withCoeff, unit, denote]

theorem denote_eq_coeff_mul (e : Expr) : denote e = C e.coeff * denote e.unit := by
  cases e <;> simp [withCoeff, unit, denote, coeff]

theorem denote_scale (e : Expr) (c : Rat) : denote (e.scale c) = C c * denote e := by
  unfold scale
  split
  next zeroed => simp [zeroed, zero, denote]
  next =>
    rw [denote_withCoeff, denote_eq_coeff_mul e, MvPolynomial.C_mul]
    ring

variable {a b e : Expr} {ρ : String → ℚ}

theorem zpow_num {K : Type} [DivisionRing K] {p : Rat} (power : Scheme.polynomial.powers p) (x : K) :
    x ^ p.num = x ^ p.num.toNat := by
  have positive : 0 ≤ p.num := Rat.num_nonneg.mpr power.2.le
  rw [← zpow_natCast, Int.toNat_of_nonneg positive]

theorem eval_denote (built : BuiltBy .polynomial e) :
    MvPolynomial.eval ρ (denote e) = eval ρ e := by
  induction built with
  | number c => simp [denote, eval]
  | symbol _ power => simp [denote, eval, zpow_num power]
  | @sum c terms p each _ power ih =>
    have values : MvPolynomial.eval ρ (denoteSum terms) = evalSum ρ terms := by
      rw [denoteSum_eq, evalSum_eq, map_list_sum, List.map_map]
      exact congrArg List.sum (List.map_congr_left ih)
    simp [denote, eval, zpow_num power, values]
  | @product c factors each ih =>
    have values : MvPolynomial.eval ρ (denoteProduct factors) = evalProduct ρ factors := by
      rw [denoteProduct_eq, evalProduct_eq, map_list_prod, List.map_map]
      exact congrArg List.prod (List.map_congr_left ih)
    simp [denote, eval, values]

/-- Expressions denote the same polynomial when they have the same value everywhere. -/
theorem denote_eq_iff (builtA : BuiltBy .polynomial a) (builtB : BuiltBy .polynomial b) :
    denote a = denote b ↔ ∀ ρ, eval ρ a = eval ρ b := by
  rw [MvPolynomial.funext_iff]
  exact forall_congr' fun ρ => by rw [eval_denote builtA, eval_denote builtB]

theorem BuiltBy.defined (built : BuiltBy .polynomial e) : Defined ρ e := by
  induction built with
  | number c => exact .number c
  | symbol _ power => exact .symbol fun negative => absurd negative power.2.le.not_gt
  | sum _ _ power ih => exact .sum ih fun negative => absurd negative power.2.le.not_gt
  | product _ ih => exact .product ih

theorem denote_add {r : Expr} (polyA : IsPolynomial a) (polyB : IsPolynomial b)
    (returned : add a b = .ok r) : IsPolynomial r ∧ denote r = denote a + denote b := by
  have admits := Scheme.polynomial_admitsSums
  have built : BuiltBy .polynomial r := (BuiltBy.keptByAddition admits).add polyA.formed polyB.formed
    polyA.built polyB.built returned
  refine ⟨⟨add_wellFormed polyA.formed polyB.formed returned, built⟩, MvPolynomial.funext fun ρ => ?_⟩
  rw [map_add, eval_denote built, eval_denote polyA.built, eval_denote polyB.built,
    eval_add polyA.formed polyB.formed polyA.built polyB.built returned]

theorem denote_mul {r : Expr} (polyA : IsPolynomial a) (polyB : IsPolynomial b)
    (returned : mul a b = .ok r) : IsPolynomial r ∧ denote r = denote a * denote b := by
  have formed := mul_wellFormed polyA.formed polyB.formed returned
  rcases mul_built polyA.formed polyB.formed polyA.built polyB.built with
    ⟨failed, _⟩ | ⟨s, same, multiplies⟩
  · cases returned.symm.trans failed
  · obtain rfl := Except.ok.inj (returned.symm.trans same)
    refine ⟨⟨formed, multiplies.built⟩, MvPolynomial.funext fun ρ => ?_⟩
    rw [map_mul, eval_denote multiplies.built, eval_denote polyA.built, eval_denote polyB.built,
      multiplies.value ρ polyA.built.defined polyB.built.defined]

/-- What a scheme builds, a wider one builds too. -/
theorem BuiltBy.mono {scheme wider : Scheme} (built : BuiltBy scheme e)
    (powers : ∀ p, scheme.powers p → wider.powers p) (shares : ∀ c, scheme.shares c → wider.shares c) :
    BuiltBy wider e := by
  induction built with
  | number c => exact .number c
  | symbol named power => exact .symbol named (powers _ power)
  | sum _ shared power ih => exact .sum ih (fun t member => shares _ (shared t member)) (powers _ power)
  | product _ ih => exact .product ih

theorem BuiltBy.polynomial (built : BuiltBy .monomial e) : BuiltBy .polynomial e :=
  built.mono (fun _ => id) fun _ _ => trivial

theorem IsMonomial.isPolynomial (monomial : IsMonomial e) : IsPolynomial e :=
  ⟨monomial.formed, monomial.built.polynomial⟩

/-- The exponent that a power of a name contributes to a monomial. -/
noncomputable def exponent (f : Expr) : String →₀ ℕ :=
  Finsupp.single (f.name?.getD "") f.power.num.toNat

noncomputable def exponents (e : Expr) : String →₀ ℕ := (e.factors.map exponent).sum

theorem denote_factors {scheme : Scheme} (built : BuiltBy scheme e) :
    denote e = C e.coeff * (e.factors.map denote).prod := by
  cases built with
  | number => simp [Expr.factors, denote, coeff]
  | symbol | sum => simp [Expr.factors, denote, coeff, unit, withCoeff]
  | @product c factors =>
    rw [Expr.factors, ((sortFactors_perm factors).map denote).prod_eq, denote, denoteProduct_eq]
    rfl

theorem exponents_withCoeff (e : Expr) (c : Rat) : (e.withCoeff c).exponents = e.exponents := by
  rw [exponents, exponents, factors_withCoeff]

theorem WellFormed.distinct_factors (formed : e.WellFormed) : (e.factors.map baseKey).Nodup := by
  cases e with
  | product c factors =>
    exact (((sortFactors_perm factors).map baseKey).nodup_iff).mpr formed.2.1.distinct
  | number => exact List.nodup_nil
  | _ => exact List.nodup_singleton _

namespace IsMonomial

/-- A factor of a monomial is a power of a name, and that name is its key. -/
theorem factors (monomial : IsMonomial e) {f : Expr} (member : f ∈ e.factors) :
    ∃ name p, f = symbol 1 name p ∧ f.baseKey = name ∧ Scheme.polynomial.powers p := by
  have plain := plainFactor_factors monomial.formed monomial.built f member
  have based := plain.based
  have formed := plain.formed
  have built := plain.built
  obtain ⟨name, p, rfl, named, power⟩ | ⟨terms, p, rfl, _⟩ := plain.cases
  · refine ⟨name, p, rfl, ?_, power⟩
    rw [based.key, based.guarded, depict, Phrase.text, Phrase.chars, String.ofList_toList]
  · -- The scheme has no sums, since their terms have coefficients.
    cases built with
    | sum _ shares _ =>
      have several := formed.2.2.1.several
      obtain ⟨t, inside⟩ := List.exists_mem_of_length_pos (l := terms) (by omega)
      exact (shares t inside).elim

theorem distinct_names (monomial : IsMonomial e) :
    (e.factors.map fun f => f.name?.getD "").Nodup := by
  have keys : (e.factors.map fun f => f.name?.getD "") = e.factors.map baseKey := by
    refine List.map_congr_left fun f member => ?_
    obtain ⟨name, p, rfl, key, _⟩ := monomial.factors member
    exact key.symm
  rw [keys]
  exact monomial.formed.distinct_factors

theorem denote_eq (monomial : IsMonomial e) :
    denote e = MvPolynomial.monomial e.exponents e.coeff := by
  have powers : ∀ f ∈ e.factors, denote f = MvPolynomial.monomial f.exponent 1 := by
    intro f member
    obtain ⟨name, p, rfl, _⟩ := monomial.factors member
    simp [denote, MvPolynomial.X_pow_eq_monomial, exponent, name?, power]
  have together : (e.factors.map denote).prod = MvPolynomial.monomial e.exponents 1 := by
    unfold exponents
    generalize e.factors = factors at powers
    induction factors with
    | nil => simp
    | cons f rest ih =>
      rw [List.map_cons, List.prod_cons, List.map_cons, List.sum_cons,
        powers f List.mem_cons_self, ih fun g later => powers g (List.mem_cons_of_mem _ later),
        MvPolynomial.monomial_mul, one_mul]
  rw [denote_factors monomial.built, together, MvPolynomial.C_mul_monomial, mul_one]

end IsMonomial

theorem exponents_of_notMem {factors : List Expr} {name : String}
    (absent : name ∉ factors.map fun f => f.name?.getD "") : (factors.map exponent).sum name = 0 := by
  have none := @sum_single_of_notMem _ _ _ (factors.map fun f => (f.name?.getD "", f.power.num.toNat))
    name (by rwa [List.map_map])
  rwa [List.map_map] at none

theorem exponents_of_mem {factors : List Expr}
    (distinct : (factors.map fun f => f.name?.getD "").Nodup) {f : Expr} (member : f ∈ factors) :
    (factors.map exponent).sum (f.name?.getD "") = f.power.num.toNat := by
  have here := @sum_single_of_mem _ _ _ (factors.map fun f => (f.name?.getD "", f.power.num.toNat))
    (by rwa [List.map_map]) _ (List.mem_map_of_mem member)
  rwa [List.map_map] at here

namespace IsMonomial

/-- Monomials with the same exponents have the same factors. -/
theorem factors_perm (monomialA : IsMonomial a) (monomialB : IsMonomial b)
    (same : a.exponents = b.exponents) : a.factors.Perm b.factors := by
  have subset {a b : Expr} (monomialA : IsMonomial a) (monomialB : IsMonomial b)
      (same : a.exponents = b.exponents) : ∀ f ∈ a.factors, f ∈ b.factors := by
    intro f member
    obtain ⟨name, p, rfl, _, whole, positive⟩ := monomialA.factors member
    have here : a.exponents name = p.num.toNat :=
      exponents_of_mem monomialA.distinct_names member
    have positive : 0 < p.num := Rat.num_pos.mpr positive
    have there : name ∈ b.factors.map fun f => f.name?.getD "" := by
      by_contra absent
      have none : b.exponents name = 0 := exponents_of_notMem absent
      rw [same] at here
      omega
    obtain ⟨g, inside, named⟩ := List.mem_map.mp there
    obtain ⟨name', q, rfl, _, whole', positive'⟩ := monomialB.factors inside
    obtain rfl : name' = name := named
    have other : b.exponents name' = q.num.toNat :=
      exponents_of_mem monomialB.distinct_names inside
    have positive' : 0 < q.num := Rat.num_pos.mpr positive'
    have powers : p = q := by
      rw [← Rat.coe_int_num_of_den_eq_one whole, ← Rat.coe_int_num_of_den_eq_one whole']
      rw [same] at here
      exact congrArg _ (by omega)
    exact powers ▸ inside
  refine (List.perm_ext_iff_of_nodup monomialA.formed.distinct_factors.of_map
    monomialB.formed.distinct_factors.of_map).mpr fun f => ?_
  exact ⟨subset monomialA monomialB same f, subset monomialB monomialA same.symm f⟩

end IsMonomial

namespace IsMonomial

/-- A monomial is a number, a power of a name or a product of such powers. -/
theorem cases (monomial : IsMonomial e) :
    (∃ c, e = number c) ∨ (∃ c name p, e = symbol c name p) ∨ ∃ c factors, e = product c factors := by
  obtain ⟨formed, built⟩ := monomial
  cases built with
  | number c => exact .inl ⟨c, rfl⟩
  | symbol => exact .inr (.inl ⟨_, _, _, rfl⟩)
  | @sum c terms p _ shares _ =>
    have several := formed.2.2.1.several
    obtain ⟨t, inside⟩ := List.exists_mem_of_length_pos (l := terms) (by omega)
    exact (shares t inside).elim
  | product => exact .inr (.inr ⟨_, _, rfl⟩)

theorem unit (monomial : IsMonomial e) : IsMonomial e.unit :=
  ⟨monomial.formed.unit, monomial.built.unit⟩

theorem coeff_unit (monomial : IsMonomial e) : e.unit.coeff = 1 := monomial.formed.coeff_withCoeff 1

/-- Monomials with the same exponents and coefficients are written alike. -/
theorem similar (monomialA : IsMonomial a) (monomialB : IsMonomial b)
    (same : a.exponents = b.exponents) (coeffs : a.coeff = b.coeff) : Similar a b := by
  have perm := monomialA.factors_perm monomialB same
  have count := perm.length_eq
  have many {c : Rat} {fs : List Expr} (monomial : IsMonomial (product c fs)) :
      2 ≤ (product c fs).factors.length := by
    rw [Expr.factors, (sortFactors_perm fs).length_eq]
    exact monomial.formed.2.1.several
  obtain ⟨c, rfl⟩ | ⟨c, name, p, rfl⟩ | ⟨c, fs, rfl⟩ := monomialA.cases
  · obtain ⟨d, rfl⟩ | ⟨d, name, p, rfl⟩ | ⟨d, gs, rfl⟩ := monomialB.cases
    · obtain rfl : c = d := coeffs
      exact .refl _
    · cases count
    · have several := many monomialB
      simp only [Expr.factors, List.length_nil] at count several
      omega
  · obtain ⟨d, rfl⟩ | ⟨d, name', q, rfl⟩ | ⟨d, gs, rfl⟩ := monomialB.cases
    · cases count
    · obtain rfl : c = d := coeffs
      have units := List.singleton_perm_singleton.mp perm
      simp only [Expr.unit, withCoeff, symbol.injEq, true_and] at units
      obtain ⟨rfl, rfl⟩ := units
      exact .refl _
    · have several := many monomialB
      simp only [Expr.factors, List.length_singleton] at count several
      omega
  · obtain ⟨d, rfl⟩ | ⟨d, name, p, rfl⟩ | ⟨d, gs, rfl⟩ := monomialB.cases
    · have several := many monomialA
      simp only [Expr.factors, List.length_nil] at count several
      omega
    · have several := many monomialA
      simp only [Expr.factors, List.length_singleton] at count several
      omega
    · obtain rfl : c = d := coeffs
      have factors := ((sortFactors_perm fs).symm.trans perm).trans (sortFactors_perm gs)
      exact (Similars.of_perm factors).product monomialA.formed.2.1.distinct c

end IsMonomial

theorem denote_summands (e : Expr) : (e.summands.map denote).sum = denote e := by
  cases e with
  | sum c terms p =>
    simp only [summands]
    split
    next plain =>
      rw [List.map_map, denote, denoteSum_eq, plain, Rat.num_one, Int.toNat_one, pow_one,
        ← List.sum_map_mul_left]
      refine congrArg List.sum (List.map_congr_left fun t _ => ?_)
      rw [Function.comp_apply, denote_withCoeff, denote_eq_coeff_mul t, MvPolynomial.C_mul]
      ring
    next => simp
  | _ => simp [summands]

namespace Expanded

theorem isMonomial (expanded : Expanded e) : ∀ t ∈ e.summands, IsMonomial t := by
  intro t member
  refine ⟨?_, expanded.built t member⟩
  cases zero : e.isZero with
  | true =>
    cases e with
    | number c =>
      obtain rfl := List.mem_singleton.mp member
      trivial
    | _ => cases zero
  | false =>
    have nonzero := expanded.nonzero zero t member
    have formed := expanded.formed
    cases e with
    | sum c terms p =>
      by_cases plain : p = 1
      · subst plain
        rw [summands_plain] at member
        obtain ⟨u, inside, rfl⟩ := List.mem_map.mp member
        have formedU := allWellFormed_iff.mp formed.2.2.2 u inside
        exact formedU.withCoeff (by rwa [formedU.coeff_withCoeff] at nonzero)
      · rw [summands, if_neg plain] at member
        obtain rfl := List.mem_singleton.mp member
        exact formed
    | _ =>
      obtain rfl := List.mem_singleton.mp member
      exact formed

/-- No two terms have the same exponents. -/
theorem distinct (expanded : Expanded e) : (e.summands.map exponents).Nodup := by
  have keys := expanded.formed.distinct_summands
  refine keys.of_map.map_on fun t memberT u memberU same => ?_
  have similar := (expanded.isMonomial t memberT).unit.similar (expanded.isMonomial u memberU).unit
    (by rw [unit, unit, exponents_withCoeff, exponents_withCoeff, same])
    (by rw [(expanded.isMonomial t memberT).coeff_unit, (expanded.isMonomial u memberU).coeff_unit])
  have key := congrArg TermRank.key similar.termRank
  rw [termRank_key, termRank_key, unit, unit, termKey_withCoeff, termKey_withCoeff] at key
  exact List.inj_on_of_nodup_map keys memberT memberU key

end Expanded

theorem coeff_sum_of_notMem {terms : List Expr} (each : ∀ t ∈ terms, IsMonomial t)
    {m : String →₀ ℕ} (absent : m ∉ terms.map exponents) :
    MvPolynomial.coeff m (terms.map denote).sum = 0 := by
  induction terms with
  | nil => simp
  | cons t rest ih =>
    simp only [List.map_cons, List.mem_cons, not_or] at absent
    rw [List.map_cons, List.sum_cons, MvPolynomial.coeff_add,
      ih (fun u later => each u (List.mem_cons_of_mem _ later)) absent.2,
      (each t List.mem_cons_self).denote_eq, MvPolynomial.coeff_monomial, if_neg (Ne.symm absent.1),
      add_zero]

theorem coeff_sum_of_mem {terms : List Expr} (each : ∀ t ∈ terms, IsMonomial t)
    (distinct : (terms.map exponents).Nodup) {t : Expr} (member : t ∈ terms) :
    MvPolynomial.coeff t.exponents (terms.map denote).sum = t.coeff := by
  induction terms with
  | nil => cases member
  | cons u rest ih =>
    obtain ⟨fresh, later⟩ := List.nodup_cons.mp distinct
    have eachRest := fun v inside => each v (List.mem_cons_of_mem u inside)
    rw [List.map_cons, List.sum_cons, MvPolynomial.coeff_add, (each u List.mem_cons_self).denote_eq,
      MvPolynomial.coeff_monomial]
    rcases List.mem_cons.mp member with rfl | inside
    · rw [if_pos rfl, coeff_sum_of_notMem eachRest fresh, add_zero]
    · have other : u.exponents ≠ t.exponents :=
        fun same => fresh (List.mem_map.mpr ⟨t, inside, same.symm⟩)
      rw [if_neg other, ih eachRest later inside, zero_add]

namespace Expanded

/-- The terms of an expanded expression are those of its polynomial. -/
theorem coeff_denote (expanded : Expanded e) {t : Expr} (member : t ∈ e.summands) :
    MvPolynomial.coeff t.exponents (denote e) = t.coeff := by
  rw [← denote_summands]
  exact coeff_sum_of_mem expanded.isMonomial expanded.distinct member

theorem isZero_iff (expanded : Expanded e) : e.isZero = true ↔ denote e = 0 := by
  constructor
  · intro zero
    cases e with
    | number c =>
      obtain rfl : c = 0 := by simpa [isZero] using zero
      simp [denote]
    | _ => cases zero
  · intro none
    by_contra proper
    obtain ⟨t, member⟩ := List.exists_mem_of_ne_nil _ expanded.formed.summands_ne_nil
    refine expanded.nonzero (Bool.eq_false_of_not_eq_true proper) t member ?_
    rw [← expanded.coeff_denote member, none, MvPolynomial.coeff_zero]

/-- Exponents and coefficients of the terms, read off the polynomial. -/
theorem terms_perm (expanded : Expanded e) (proper : e.isZero = false) :
    (e.summands.map fun t => (t.exponents, t.coeff)).Perm
      ((denote e).support.toList.map fun m => (m, MvPolynomial.coeff m (denote e))) := by
  have distinct : (e.summands.map fun t => (t.exponents, t.coeff)).Nodup := by
    refine List.Nodup.of_map Prod.fst ?_
    rw [List.map_map]
    exact expanded.distinct
  have others : ((denote e).support.toList.map fun m =>
      (m, MvPolynomial.coeff m (denote e))).Nodup := by
    refine List.Nodup.of_map Prod.fst ?_
    rw [List.map_map]
    exact (List.map_id _).symm ▸ (denote e).support.nodup_toList
  refine (List.perm_ext_iff_of_nodup distinct others).mpr fun pair => ⟨fun left => ?_, fun right => ?_⟩
  · obtain ⟨t, member, rfl⟩ := List.mem_map.mp left
    have coeff := expanded.coeff_denote member
    refine List.mem_map.mpr ⟨t.exponents, ?_, by rw [coeff]⟩
    rw [Finset.mem_toList, MvPolynomial.mem_support_iff, coeff]
    exact expanded.nonzero proper t member
  · obtain ⟨m, member, rfl⟩ := List.mem_map.mp right
    rw [Finset.mem_toList, MvPolynomial.mem_support_iff] at member
    have found : m ∈ e.summands.map exponents := by
      by_contra absent
      rw [← denote_summands] at member
      exact member (coeff_sum_of_notMem expanded.isMonomial absent)
    obtain ⟨t, inside, rfl⟩ := List.mem_map.mp found
    exact List.mem_map.mpr ⟨t, inside, by rw [expanded.coeff_denote inside]⟩

theorem similars (expandedA : Expanded a) (expandedB : Expanded b) (same : denote a = denote b) :
    Similars a.summands b.summands := by
  cases zeroA : a.isZero with
  | true =>
    have zeroB : b.isZero = true := by
      rw [expandedB.isZero_iff, ← same]
      exact expandedA.isZero_iff.mp zeroA
    rw [eq_zero_of_isZero zeroA, eq_zero_of_isZero zeroB]
    exact .of_perm (.refl _)
  | false =>
    have zeroB : b.isZero = false := by
      rw [Bool.eq_false_iff, ne_eq, expandedB.isZero_iff, ← same, ← expandedA.isZero_iff, zeroA]
      decide
    have perm := expandedA.terms_perm zeroA
    rw [same] at perm
    refine .of_images (fun t => (t.exponents, t.coeff))
      (perm.trans (expandedB.terms_perm zeroB).symm) fun t memberT u memberU image => ?_
    simp only [Prod.mk.injEq] at image
    exact (expandedA.isMonomial t memberT).similar (expandedB.isMonomial u memberU) image.1 image.2

/-- Expanded expressions of the same polynomial are written alike. -/
theorem similar (expandedA : Expanded a) (expandedB : Expanded b) (same : denote a = denote b) :
    Similar a b := by
  have similars := expandedA.similars expandedB same
  have count := similars.length_eq
  have many {c : Rat} {terms : List Expr} (expanded : Expanded (sum c terms 1)) :
      2 ≤ (sum c terms 1).summands.length := by
    rw [summands_plain, List.length_map]
    exact expanded.formed.2.2.1.several
  rcases summands_cases a with singleA | ⟨c, ts, rfl⟩
  · rcases summands_cases b with singleB | ⟨d, us, rfl⟩
    · rw [singleA, singleB] at similars
      exact similars.single
    · have several := many expandedB
      rw [singleA, List.length_singleton] at count
      omega
  · rcases summands_cases b with singleB | ⟨d, us, rfl⟩
    · have several := many expandedA
      rw [singleB, List.length_singleton] at count
      omega
    · have sums := similars.ofTerms (collected_plain expandedA.formed)
      rwa [ofTerms_summands expandedA.formed expandedA.nonzero,
        ofTerms_summands expandedB.formed expandedB.nonzero] at sums

end Expanded

end Expr
end ExactAlgebra
