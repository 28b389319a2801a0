import ExactAlgebra.Proofs.HigherDerivatives
import ExactAlgebra.Proofs.Interruption
import ExactAlgebra.Proofs.PowerSums
import ExactAlgebra.Proofs.RootPowers
import Mathlib

/-! Polynomials in one unknown, as they are written. A number put for the unknown gives a number, which only the
size of a power can prevent; a derivative is such a polynomial again, and the coefficients that are collected are
those of the polynomial. -/
namespace ExactAlgebra.Expr
open Engine

/-- A polynomial in normal form with no name but the unknown. -/
structure IsPolynomialIn (x : String) (e : Expr) : Prop where
  poly : IsPolynomial e
  only : NamesHave (· = x) e

/-- The polynomial for which an expression in one unknown stands. -/
noncomputable def inOne (e : Expr) : Polynomial ℚ := MvPolynomial.aeval (fun _ => Polynomial.X) (denote e)

variable {context : Context} {x : String} {a b d e r : Expr}

@[simp] theorem inOne_number (c : ℚ) : inOne (number c) = Polynomial.C c := by
  simp [inOne, denote]

@[simp] theorem inOne_symbol (c : ℚ) (name : String) (p : ℚ) :
    inOne (symbol c name p) = Polynomial.C c * Polynomial.X ^ p.num.toNat := by
  simp [inOne, denote]

theorem inOne_sum (c : ℚ) (terms : List Expr) (p : ℚ) :
    inOne (sum c terms p) = Polynomial.C c * (terms.map inOne).sum ^ p.num.toNat := by
  rw [inOne, denote, denoteSum_eq, map_mul, map_pow, map_list_sum, List.map_map]
  simp only [MvPolynomial.algHom_C, Polynomial.algebraMap_eq]
  rfl

theorem inOne_product (c : ℚ) (factors : List Expr) :
    inOne (product c factors) = Polynomial.C c * (factors.map inOne).prod := by
  rw [inOne, denote, denoteProduct_eq, map_mul, map_list_prod, List.map_map]
  simp only [MvPolynomial.algHom_C, Polynomial.algebraMap_eq]
  rfl

theorem inOne_summands (e : Expr) : (e.summands.map inOne).sum = inOne e := by
  have total := congrArg (MvPolynomial.aeval fun _ => (Polynomial.X : Polynomial ℚ)) (denote_summands e)
  rwa [map_list_sum, List.map_map] at total

theorem eval_inOne (built : BuiltBy .polynomial e) (r : ℚ) : (inOne e).eval r = eval (fun _ => r) e := by
  rw [← eval_denote built, inOne, ← Polynomial.coe_aeval_eq_eval, MvPolynomial.comp_aeval_apply]
  simp only [Polynomial.aeval_X]
  rfl

/-- As a real function the expression is the polynomial. -/
theorem IsPolynomialIn.realValue_eq (poly : IsPolynomialIn x e) (ρ : String → ℝ) :
    realValue ρ e = Polynomial.aeval (ρ x) (inOne e) := by
  obtain ⟨⟨-, built⟩, only⟩ := poly
  induction built with
  | number c => simp [realValue]
  | @symbol c name p named power =>
    obtain rfl : name = x := only name (List.mem_singleton_self name)
    rw [realValue, if_neg (isVariableName_ne_e named), inOne_symbol, zpow_num power]
    simp
  | @sum c terms p each _ power ih =>
    have values := List.map_congr_left fun t member => ih t member (NamesHave.sum.mp only t member)
    rw [realValue, realValues_eq, values, inOne_sum, zpow_num power]
    simp [map_list_sum, Function.comp_def]
  | @product c factors each ih =>
    have values := List.map_congr_left fun f member => ih f member (NamesHave.product.mp only f member)
    rw [realValue, realValues_eq, values, inOne_product]
    simp [map_list_prod, Function.comp_def]

namespace IsPolynomialIn

theorem number (c : ℚ) : IsPolynomialIn x (number c) := ⟨⟨trivial, .number c⟩, .number c⟩

/-- All names are variables, so it is enough to know the variables. -/
theorem of_variables (poly : IsPolynomial e)
    (only : NamesHave (fun name => isVariableName name = true → name = x) e) : IsPolynomialIn x e := by
  refine ⟨poly, ?_⟩
  obtain ⟨-, built⟩ := poly
  induction built with
  | number c => exact .number c
  | symbol named => exact .symbol (only _ (List.mem_singleton_self _) named)
  | sum _ _ _ ih => exact NamesHave.sum.mpr fun t member => ih t member (NamesHave.sum.mp only t member)
  | product _ ih => exact NamesHave.product.mpr fun f member => ih f member (NamesHave.product.mp only f member)

theorem onVariables (poly : IsPolynomialIn x e) :
    NamesHave (fun name => isVariableName name = true → name = x) e := fun name member _ => poly.only name member

/-- Arithmetic brings in no variables. -/
theorem admits : Admits (fun name => isVariableName name = true → name = x) where
  imaginary named := absurd named (by decide)
  minusOne named := absurd named (by decide)
  digits n named := by
    rw [isVariableName, Text.isIntegerText_toString, Bool.not_true, Bool.and_false] at named
    cases named

theorem scale (poly : IsPolynomialIn x e) (c : ℚ) : IsPolynomialIn x (e.scale c) :=
  ⟨⟨poly.poly.formed.scale c, poly.poly.built.scale c⟩, poly.only.scale c⟩

theorem add (polyA : IsPolynomialIn x a) (polyB : IsPolynomialIn x b) (returned : add a b = .ok r) :
    IsPolynomialIn x r :=
  .of_variables (denote_add polyA.poly polyB.poly returned).1 (polyA.onVariables.add admits polyB.onVariables returned)

theorem mul (polyA : IsPolynomialIn x a) (polyB : IsPolynomialIn x b) (returned : mul a b = .ok r) :
    IsPolynomialIn x r :=
  .of_variables (denote_mul polyA.poly polyB.poly returned).1 (polyA.onVariables.mul admits polyB.onVariables returned)

theorem mulAll {factors : List Expr} (poly : IsPolynomialIn x a) (each : ∀ f ∈ factors, IsPolynomialIn x f)
    (returned : mulAll a factors = .ok r) : IsPolynomialIn x r :=
  .of_variables (denote_mulAll poly.poly (fun f member => (each f member).poly) returned).1
    (.mulAll admits poly.onVariables (fun f member => (each f member).onVariables) returned)

theorem powRat (poly : IsPolynomialIn x a) {p : ℚ} (power : Scheme.polynomial.powers p)
    (returned : a.powRat p = .ok r) : IsPolynomialIn x r := by
  have denotes : Denotes (denote a) a := ⟨poly.poly, rfl⟩
  rcases denotes.powRat power with large | ⟨s, raised, polyS, -⟩
  · cases returned.symm.trans large
  · obtain rfl := Except.ok.inj (returned.symm.trans raised)
    exact .of_variables polyS (poly.onVariables.powRat admits returned)

end IsPolynomialIn

theorem powRat_zero (some : a.isZero = false) : a.powRat 0 = .ok one := by
  obtain ⟨n, limit⟩ := enough_for_one a a
  rw [Expr.powRat, limit]
  unfold powRatWithin
  rw [if_pos rfl, some]
  rfl

/-- A power of a number. -/
theorem givesNumber_powRat (c : ℚ) {p : ℚ} (power : Scheme.polynomial.powers p) :
    GivesNumber (c ^ p.num) ((number c).powRat p) := by
  by_cases one : p = 1
  · rw [one, powRat_one, Rat.num_one, zpow_one]
    exact .inl rfl
  by_cases zero : c = 0
  · refine .inl ?_
    obtain ⟨n, limit⟩ := enough_for_one (number c) (number c)
    rw [powRat, limit]
    unfold powRatWithin
    rw [if_neg power.2.ne', if_neg one]
    dsimp only
    rw [if_pos zero, if_neg power.2.le.not_gt, zero, zero_zpow _ (Rat.num_ne_zero.mpr power.2.ne')]
    rfl
  · rw [powRat_number zero power.2.ne' one]
    exact givesNumber_powNumber zero power.1

theorem GivesNumber.meets {c : ℚ} {y : Except Fault Expr} (gives : GivesNumber c y) :
    Meets context (· = .powerTooLarge maxIntegerBits) (liftM y) (· = number c) := by
  rcases gives with rfl | rfl
  · exact Meets.pure rfl
  · exact Meets.throw rfl

theorem numbers_mirror (context : Context) :
    Mirrors context (· = .powerTooLarge maxIntegerBits) fun (v : ℚ) e => e = number v where
  number _ := rfl
  scale := by
    rintro v _ rfl c
    rw [scale_number, mul_comm]
    rfl
  add := by
    rintro v w _ _ rfl rfl
    exact Meets.of_ok (add_numbers v w)
  mul := by
    rintro v w _ _ rfl rfl
    exact Meets.of_ok (mul_numbers v w)
  powRat := by
    rintro v _ p rfl power
    rw [← zpow_num power]
    exact (givesNumber_powRat v power).meets

/-- With a number for the unknown, the value at the number is computed. -/
theorem meets_substitute_number (poly : IsPolynomialIn x e) (c : ℚ) :
    Meets context (· = .powerTooLarge maxIntegerBits) (e.substitute x (number c))
      (· = number (eval (fun _ => c) e)) := by
  have built := poly.poly.built
  rw [← eval_denote built, ← MvPolynomial.coe_aeval_eq_eval]
  refine (numbers_mirror context).rebuild built fun name inside => ⟨number c, ?_, rfl⟩
  obtain rfl : name = x := poly.only name inside
  simp [leafOf, isCopyable]

theorem BuiltBy.smooth (built : BuiltBy .polynomial e) : Smooth e := by
  induction built with
  | number c => exact .number c
  | symbol named power => exact .unknown named power.1
  | sum _ _ power ih => exact .sum ih power.1
  | product _ ih => exact .product ih

theorem BuiltBy.noPole (built : BuiltBy .polynomial e) (ρ : String → ℝ) : NoPole ρ e := by
  induction built with
  | number c => exact .number c
  | symbol _ power => exact .symbol fun negative => absurd negative power.2.le.not_gt
  | sum _ _ power ih => exact .sum ih fun negative => absurd negative power.2.le.not_gt
  | product _ ih => exact .product ih

/-- The computation neither reads the context nor looks at the clock; what it returns has the property. -/
def Lifts {α : Type} (y : Engine α) (post : α → Prop) : Prop :=
  ∃ z : Except Fault α, y = liftM z ∧ ∀ r, z = .ok r → post r

namespace Lifts

variable {α β : Type} {y : Engine α} {post : α → Prop}

theorem pure {r : α} (holds : post r) : Lifts (Pure.pure r) post :=
  ⟨.ok r, rfl, fun _ same => Except.ok.inj same ▸ holds⟩

theorem bind {f : α → Engine β} {after : β → Prop} (first : Lifts y post) (next : ∀ r, post r → Lifts (f r) after) :
    Lifts (y >>= f) after := by
  obtain ⟨z, rfl, holds⟩ := first
  cases z with
  | error fault => exact ⟨.error fault, rfl, fun r impossible => by cases impossible⟩
  | ok r =>
    obtain ⟨z, same, holdsAfter⟩ := next r (holds r rfl)
    exact ⟨z, same, holdsAfter⟩

theorem foldlM {step : β → α → Engine β} {items : List α} {kept : β → Prop} {start : β} (holds : kept start)
    (each : ∀ b, kept b → ∀ a ∈ items, Lifts (step b a) kept) : Lifts (items.foldlM step start) kept := by
  induction items generalizing start with
  | nil => exact pure holds
  | cons a rest ih =>
    rw [List.foldlM_cons]
    refine (each start holds a List.mem_cons_self).bind fun b holds => ?_
    exact ih holds fun c holds d later => each c holds d (List.mem_cons_of_mem _ later)

/-- What such a computation comes to in one context it comes to in every other. -/
theorem meets {accepts : Fault → Prop} {more : α → Prop} {other : Context} (lifts : Lifts y post)
    (meets : Meets other accepts y more) : Meets context accepts y fun r => post r ∧ more r := by
  obtain ⟨z, rfl, holds⟩ := lifts
  intro looks
  have reached := meets looks
  cases z with
  | error => exact reached
  | ok r => exact ⟨holds r rfl, reached⟩

end Lifts

theorem powers_sub_one {p : ℚ} (power : Scheme.polynomial.powers p) (other : p ≠ 1) :
    Scheme.polynomial.powers (p - 1) := by
  refine ⟨sub_one_den power.1, ?_⟩
  have large : 1 < p.num := by
    have positive := Rat.num_pos.mpr power.2
    have proper : p.num ≠ 1 := fun same => other (by rw [← Rat.coe_int_num_of_den_eq_one power.1, same, Int.cast_one])
    omega
  rw [sub_pos, ← Rat.coe_int_num_of_den_eq_one power.1]
  exact_mod_cast large

/-- A polynomial is differentiated without a call, and its derivative is a polynomial in the same unknown. -/
theorem lifts_derive (poly : IsPolynomialIn x e) : Lifts (derive x e) (IsPolynomialIn x) := by
  have lift {y : Except Fault Expr} (holds : ∀ r, y = .ok r → IsPolynomialIn x r) :
      Lifts (liftM y) (IsPolynomialIn x) := ⟨y, rfl, holds⟩
  have constant : Lifts (return zero) (IsPolynomialIn x) := .pure (.number 0)
  induction e using Expr.induction with
  | number => exact constant
  | call => cases poly.poly.built
  | exponential => cases poly.poly.built
  | foreign => cases poly.poly.built
  | symbol c name p =>
    obtain ⟨⟨formed, built⟩, only⟩ := poly
    cases built with
    | symbol named power =>
      obtain rfl : name = x := only name (List.mem_singleton_self name)
      have unknown : IsPolynomialIn name (bare name) := by
        have plain := (isVariableName_eq named).1
        have spelled := formed.2.2.1.resolve_right (by rw [plain]; exact Bool.false_ne_true)
        exact ⟨⟨wellFormed_bare spelled plain, .symbol named Scheme.polynomial.one⟩, .symbol rfl⟩
      rw [derive, if_pos (beq_self_eq_true name)]
      refine (lift fun r raised => ?_).bind fun r polyR => .pure ((polyR.scale p).scale c)
      by_cases one : p = 1
      · rw [one, sub_self, powRat_zero rfl] at raised
        cases raised
        exact .number 1
      · exact unknown.powRat (powers_sub_one power one) raised
  | sum c terms p ih =>
    obtain ⟨⟨formed, built⟩, only⟩ := poly
    cases built with
    | sum each shares power =>
      have polyTerm : ∀ t ∈ terms, IsPolynomialIn x t := fun t member =>
        ⟨⟨allWellFormed_iff.mp formed.2.2.2 t member, each t member⟩, NamesHave.sum.mp only t member⟩
      have stem : IsPolynomialIn x (sum 1 terms 1) :=
        ⟨⟨⟨one_ne_zero, one_ne_zero, formed.2.2⟩, .sum each shares Scheme.polynomial.one⟩,
          NamesHave.sum.mpr (NamesHave.sum.mp only)⟩
      rw [derive_sum]
      split
      · have inner (share : ℚ) : Lifts ((sortTerms terms).foldlM
            (fun total t => do add total ((← derive x t).scale share)) zero : Engine Expr) (IsPolynomialIn x) := by
          refine Lifts.foldlM (.number 0) fun total polyTotal t member => ?_
          have inside := (sortTerms_perm terms).mem_iff.mp member
          refine (ih t inside (polyTerm t inside)).bind fun d polyD => ?_
          exact lift fun r added => polyTotal.add (polyD.scale share) added
        unfold derivePower
        split
        · exact (inner _).bind fun d polyD => .pure (polyD.scale _)
        next other =>
          refine (lift fun r raised => stem.powRat (powers_sub_one power other) raised).bind fun outer polyOuter => ?_
          refine (inner _).bind fun d polyD => ?_
          refine (lift fun r multiplied => (polyOuter.scale p).mul polyD multiplied).bind fun r polyR => ?_
          exact .pure (polyR.scale _)
      · exact constant
  | product c factors ih =>
    obtain ⟨⟨formed, built⟩, only⟩ := poly
    cases built with
    | product each =>
      have polyFactor : ∀ f ∈ factors, IsPolynomialIn x f := fun f member =>
        ⟨⟨allWellFormed_iff.mp formed.2.2 f member, each f member⟩, NamesHave.product.mp only f member⟩
      rw [derive_product]
      split
      · have start : IsPolynomialIn x zero := .number 0
        refine (Lifts.foldlM start fun total polyTotal item listed => ?_).bind fun total polyTotal =>
          .pure (polyTotal.scale c)
        have member : item.1 ∈ factors := List.fst_mem_of_mem_zipIdx listed
        unfold withOthers
        refine (ih item.1 member (polyFactor item.1 member)).bind fun d polyD => ?_
        dsimp only
        split
        · exact .pure polyTotal
        · refine (lift fun r multiplied => polyD.mulAll (fun f other =>
            polyFactor f (List.mem_of_mem_eraseIdx other)) multiplied).bind fun t polyT => ?_
          exact lift fun r added => polyTotal.add polyT added
      · exact constant

/-- Differentiating an expression differentiates the polynomial. -/
theorem meets_derive_polynomial (poly : IsPolynomialIn x e) (unknown : isVariableName x = true) :
    Meets context (RefusedFor (Overlong x e)) (derive x e) fun d =>
      IsPolynomialIn x d ∧ inOne d = (inOne e).derivative ∧ Derivative x e d := by
  have knows := knowsElementary_initial
  generalize (⟨Session.initial.scope, callWithin maxCallDepth⟩ : Context) = session at knows
  have built := poly.poly.built
  have everywhere : Set.univ ⊆ {ρ | NoPole ρ e} := fun ρ _ => built.noPole ρ
  have slopes : Meets session (RefusedFor (Overlong x e)) _ _ :=
    (built.smooth.differentiates poly.poly.formed knows unknown).within knows everywhere fun r arises long =>
      ⟨r, arises, long⟩
  refine ((lifts_derive poly).meets slopes).imp ?_
  rintro d ⟨polyD, stands, derived⟩
  refine ⟨polyD, Polynomial.funext fun r => ?_, derived⟩
  have value := stands.value (fun _ => (r : ℝ)) trivial
  have curve : along x (fun _ => (r : ℝ)) e = fun t => Polynomial.aeval t (inOne e) := by
    funext t
    rw [along, poly.realValue_eq, Function.update_self]
  rw [polyD.realValue_eq, slope, curve, Polynomial.deriv_aeval] at value
  rw [← eq_ratCast (algebraMap ℚ ℝ) r, Polynomial.aeval_algebraMap_apply, Polynomial.aeval_algebraMap_apply] at value
  exact (algebraMap ℚ ℝ).injective value

@[simp] theorem inOne_powerTerm (c : ℚ) (n : ℕ) : inOne (powerTerm x c (n : ℤ)) = Polynomial.monomial n c := by
  by_cases zero : n = 0
  · subst zero
    simp
  · rw [powerTerm_of_ne (Nat.cast_ne_zero.mpr zero)]
    simp [Polynomial.C_mul_X_pow_eq_monomial]

/-- A monomial in one unknown is a power of it. -/
theorem IsMonomial.exists_powerTerm (monomial : IsMonomial e) (only : NamesHave (· = x) e) :
    ∃ i : ℕ × ℚ, powerTerm x i.2 (i.1 : ℤ) = e := by
  obtain ⟨c, rfl⟩ | ⟨c, name, p, rfl⟩ | ⟨c, factors, rfl⟩ := monomial.cases
  · exact ⟨(0, c), rfl⟩
  · obtain rfl : name = x := only name (List.mem_singleton_self name)
    cases monomial.built with
    | symbol _ power =>
      have size : (p.num.toNat : ℤ) = p.num := Int.toNat_of_nonneg (Rat.num_pos.mpr power.2).le
      refine ⟨(p.num.toNat, c), ?_⟩
      rw [size, powerTerm_of_ne (Rat.num_ne_zero.mpr power.2.ne'), Rat.coe_int_num_of_den_eq_one power.1]
  · -- Two factors would be powers of the same name.
    have distinct := monomial.distinct_names
    have names : (product c factors).factors.map (fun f => f.name?.getD "") =
        List.replicate (product c factors).factors.length x := by
      refine List.map_eq_replicate_iff.mpr fun f member => ?_
      obtain ⟨name, p, rfl, -⟩ := monomial.factors member
      exact NamesHave.product.mp only _ ((sortFactors_perm factors).mem_iff.mp member) name
        (List.mem_singleton_self name)
    rw [names, List.nodup_replicate, Expr.factors, (sortFactors_perm factors).length_eq] at distinct
    have several := monomial.formed.2.1.several
    omega

/-- The terms of an expanded polynomial in one unknown are powers of the unknown. -/
theorem Expanded.exists_spread (expanded : Expanded e) (only : NamesHave (· = x) e) :
    ∃ items : List (ℕ × ℚ), items ≠ [] ∧ e.spreadTerms = items.map (fun i => powerTerm x i.2 (i.1 : ℤ)) ∧
      monomials items = inOne e := by
  have perm := spreadTerms_perm e
  have powers : e.spreadTerms ∈ Set.range (List.map fun i : ℕ × ℚ => powerTerm x i.2 (i.1 : ℤ)) := by
    rw [Set.range_list_map]
    exact fun t member => (expanded.isMonomial t (perm.mem_iff.mp member)).exists_powerTerm (only.spreadTerms t member)
  obtain ⟨items, spread⟩ := powers
  refine ⟨items, ?_, spread.symm, ?_⟩
  · rintro rfl
    exact expanded.formed.summands_ne_nil (spread ▸ perm).nil_eq.symm
  · rw [← inOne_summands, ← (perm.map inOne).sum_eq, ← spread, List.map_map, monomials]
    exact congrArg List.sum (List.map_congr_left fun i _ => (inOne_powerTerm i.2 i.1).symm)

/-- Expansion leaves the unknown and the polynomial as they are. -/
theorem IsPolynomialIn.meets_expanded (poly : IsPolynomialIn x e) :
    Meets context (Stopped context e.formalDegree) (expand e) fun expanded =>
      Expanded expanded ∧ NamesHave (· = x) expanded ∧ inOne expanded = inOne e := by
  refine ((Expr.meets_expand poly.poly).and ((names_keptByExpansion admits).expand poly.onVariables)).imp ?_
  rintro expanded ⟨represents, only⟩
  have kept : IsPolynomialIn x expanded := .of_variables represents.expanded.isPolynomial only
  exact ⟨represents.expanded, kept.only, by rw [inOne, represents.value, inOne]⟩

/-- A polynomial in one unknown is expanded to powers of it. -/
theorem IsPolynomialIn.meets_expand (poly : IsPolynomialIn x e) :
    Meets context (Stopped context e.formalDegree) (expand e) fun expanded => ∃ items : List (ℕ × ℚ), items ≠ [] ∧
      expanded.spreadTerms = items.map (fun i => powerTerm x i.2 (i.1 : ℤ)) ∧ monomials items = inOne e := by
  refine poly.meets_expanded.imp ?_
  rintro r ⟨expanded, only, same⟩
  exact same ▸ expanded.exists_spread only

/-- The coefficients that are collected are those of the polynomial, up to the leading one. -/
theorem IsPolynomialIn.meets_coeffs? (poly : IsPolynomialIn x e) :
    Meets context (Stopped context e.formalDegree) (e.coeffs? x) fun cs? => ∃ cs : List ℚ,
      cs? = some (cs.map Expr.number) ∧ Poly.ofCoefficients cs = inOne e ∧
        cs.length = (inOne e).natDegree + 1 ∧ cs.getLastD 0 = (inOne e).leadingCoeff :=
  meets_coeffs?_of_powers poly.meets_expand

theorem IsPolynomialIn.meets_poly? (poly : IsPolynomialIn x e) :
    Meets context (Stopped context e.formalDegree) (e.poly? x) fun p? =>
      ∃ p : Poly, p? = some p ∧ p.toPolynomial = inOne e :=
  meets_poly?_of_powers poly.meets_expand

end ExactAlgebra.Expr
