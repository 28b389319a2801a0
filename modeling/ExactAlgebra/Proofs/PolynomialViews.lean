import ExactAlgebra.Proofs.CommonFactors
import ExactAlgebra.Proofs.LaplaceInversion
import ExactAlgebra.Proofs.PolynomialsInOne
import Mathlib

/-! Polynomials by their coefficients and as expressions. The two views agree: a polynomial that is written out is
read back, and what an expression is read as is written as the expanded expression is. Both views hold the same
multiples of powers; between them stands only whether several powers can be told apart by their keys. -/
namespace ExactAlgebra.Expr
open Engine
open MvPolynomial (C X)

variable {context : Context} {x : String} {e r : Expr} {items : List (ℕ × ℚ)} {p : Poly}

theorem monomials_indexed (n : ℕ) (cs : List ℚ) :
    monomials (indexed n cs) = Polynomial.X ^ n * Poly.ofCoefficients cs := by
  induction cs generalizing n with
  | nil => simp [indexed, Poly.ofCoefficients]
  | cons c cs ih =>
    have step : Polynomial.X ^ n * Poly.ofCoefficients (c :: cs) =
        Polynomial.monomial n c + Polynomial.X ^ (n + 1) * Poly.ofCoefficients cs := by
      rw [Poly.ofCoefficients, ← Polynomial.C_mul_X_pow_eq_monomial]
      ring
    rw [indexed, step]
    split
    next zero => rw [ih, zero, map_zero, zero_add]
    next => rw [monomials_cons, ih]

theorem monomials_coefficients (p : Poly) : monomials (indexed 0 p.coefficients) = p.toPolynomial := by
  rw [monomials_indexed, pow_zero, one_mul, Poly.toPolynomial]

/-- The indices are the exponents that occur. -/
theorem toFinset_indices (distinct : (items.map Prod.fst).Nodup) (nonzero : ∀ i ∈ items, i.2 ≠ 0) :
    (items.map Prod.fst).toFinset = (monomials items).support := by
  ext n
  rw [List.mem_toFinset, List.mem_map, Polynomial.mem_support_iff]
  constructor
  · rintro ⟨i, member, rfl⟩
    obtain ⟨some, same⟩ := (mem_iff_coeff distinct nonzero i).mp member
    rwa [same]
  · intro occurs
    exact ⟨(n, (monomials items).coeff n), (mem_iff_coeff distinct nonzero _).mpr ⟨occurs, rfl⟩, rfl⟩

/-- The polynomial has several terms, and its degree is too long to be written out. -/
def IsLong (q : Polynomial ℚ) : Prop := 1 < q.support.card ∧ Rational.digitBound ≤ q.natDegree

/-- Several powers have keys of their own exactly where the polynomial is not long. -/
theorem legible_iff (distinct : (items.map Prod.fst).Nodup) (nonzero : ∀ i ∈ items, i.2 ≠ 0) :
    Legible (fun n => n) (items.map Prod.fst) ↔ ¬ IsLong (monomials items) := by
  have indices := toFinset_indices distinct nonzero
  have count : (items.map Prod.fst).length = (monomials items).support.card := by
    rw [← indices, List.toFinset_card_of_nodup distinct]
  have occurs (n : ℕ) : n ∈ items.map Prod.fst ↔ n ∈ (monomials items).support := by
    rw [← indices, List.mem_toFinset]
  have writable (n : ℕ) : Rational.isWritable ((n : ℤ) : ℚ) = decide (n < Rational.digitBound) := by
    rw [Int.cast_natCast, isWritable_natCast]
  rw [IsLong, not_and_or, not_lt, not_le, Legible, count]
  refine or_congr_right' fun several => ⟨fun each => ?_, fun short n listed => ?_⟩
  · have proper : monomials items ≠ 0 := by
      rintro zero
      rw [zero, Polynomial.support_zero, Finset.card_empty] at several
      exact several (Nat.zero_le 1)
    have highest := each _ ((occurs _).mpr (Polynomial.natDegree_mem_support_of_nonzero proper))
    rwa [writable, decide_eq_true_eq] at highest
  · have below := Polynomial.le_natDegree_of_mem_supp n ((occurs n).mp listed)
    rw [writable, decide_eq_true_eq]
    omega

/-- An expanded polynomial in one unknown is the sum of its multiples of powers. -/
theorem Expanded.exists_powerSum (expanded : Expanded e) (only : NamesHave (· = x) e) :
    ∃ items, PowerSum x (fun n => n) items e ∧ monomials items = inOne e := by
  cases zero : e.isZero with
  | true =>
    obtain rfl := eq_zero_of_isZero zero
    exact ⟨[], .zero x _, (inOne_number 0).trans (map_zero _) |>.symm⟩
  | false =>
    obtain ⟨items, -, spread, total⟩ := expanded.exists_spread only
    have terms := spread ▸ spreadTerms_perm e
    refine ⟨items, ⟨expanded.formed, fun i member => ?_, .inr ⟨zero, terms.symm⟩⟩, total⟩
    have nonzero := expanded.nonzero zero _ (terms.mem_iff.mp (List.mem_map_of_mem member))
    rwa [coeff_powerTerm] at nonzero

theorem IsPolynomialIn.meets_expand_powerSum (poly : IsPolynomialIn x e) :
    Meets context (Stopped context e.formalDegree) (expand e) fun r =>
      ∃ items, PowerSum x (fun n => n) items r ∧ monomials items = inOne e := by
  refine poly.meets_expanded.imp ?_
  rintro r ⟨expanded, only, same⟩
  exact same ▸ expanded.exists_powerSum only

/-- What can be expanded is read. -/
theorem IsPolynomialIn.meets_poly?_of_expands (poly : IsPolynomialIn x e) (expands : Yields context (expand e) r) :
    Meets context (Interrupted context) (e.poly? x) fun p? => p?.isSome := by
  have powers : Meets context (Interrupted context) (expand e) fun r => ∃ items : List (ℕ × ℚ), items ≠ [] ∧
      r.spreadTerms = items.map (fun i => powerTerm x i.2 (i.1 : ℤ)) ∧ monomials items = inOne e :=
    (repeatable_expand e expands context).imp fun _ same => same ▸ poly.meets_expand.yielded expands
  refine (meets_poly?_of_powers powers).imp ?_
  rintro _ ⟨p, rfl, -⟩
  rfl

section

variable (named : Identifier x) (unknown : isVariableName x = true)
include named unknown

/-- A polynomial is written out unless it is long. -/
theorem toExpr_powers_or_long (p : Poly) :
    (∃ s, p.toExpr x = .ok s ∧ PowerSum x (fun n => n) (indexed 0 p.coefficients) s) ∨
      (p.toExpr x = .error .unsupported ∧ IsLong p.toPolynomial) := by
  have nonzero : ∀ i ∈ indexed 0 p.coefficients, i.2 ≠ 0 := fun i member =>
    (indexed_bound 0 p.coefficients i member).2.2
  have outcome := toExpr_powers named unknown p
  rwa [legible_iff (nodup_indexed 0 p.coefficients) nonzero, not_not, monomials_coefficients] at outcome

/-- What is written out is read back, and no deadline can pass meanwhile. -/
theorem poly?_toExpr (p : Poly) :
    (¬ IsLong p.toPolynomial → ∃ s, p.toExpr x = .ok s ∧ Meets context (Unset context) (s.poly? x) (· = some p)) ∧
      (IsLong p.toPolynomial → p.toExpr x = .error .unsupported) := by
  rcases toExpr_powers_or_long named unknown p with ⟨s, written, sum⟩ | ⟨refused, long⟩
  · constructor
    · intro _
      refine ⟨s, written, (sum.meets_poly? named unknown).imp ?_⟩
      rintro _ ⟨q, rfl, value⟩
      rw [monomials_coefficients] at value
      exact congrArg some (Poly.toPolynomial_injective value)
    · intro long
      have legible := (legible_iff sum.distinct sum.nonzero).mp sum.legible
      rw [monomials_coefficients] at legible
      exact absurd long legible
  · constructor
    · intro short
      exact absurd long short
    · intro _
      exact refused

/-- The polynomial that a sum of powers stands for is written as the sum is. -/
theorem PowerSum.exists_toExpr (sum : PowerSum x (fun n => n) items r) (same : p.toPolynomial = monomials items) :
    ∃ s, p.toExpr x = .ok s ∧ s.render = r.render := by
  rcases toExpr_powers_or_long named unknown p with ⟨s, written, sumS⟩ | ⟨-, long⟩
  · have listed := perm_of_monomials sumS.distinct sum.distinct sumS.nonzero sum.nonzero
      ((monomials_coefficients p).trans same)
    exact ⟨s, written, (sumS.perm listed).render_eq sum⟩
  · rw [same] at long
    exact absurd long ((legible_iff sum.distinct sum.nonzero).mp sum.legible)

/-- The polynomial that an expression is read as is written as the expanded expression is. -/
theorem IsPolynomialIn.toExpr_poly? (poly : IsPolynomialIn x e) :
    Meets context (Stopped context e.formalDegree) (e.poly? x) fun p? =>
      ∃ p s, p? = some p ∧ p.toPolynomial = inOne e ∧ p.toExpr x = .ok s ∧
        Meets context (Interrupted context) (expand e) fun r => s.render = r.render := by
  refine (poly.meets_poly?.with_run.imp ?_).accept fun fault stopped => stopped.1
  rintro _ ⟨⟨p, rfl, value⟩, read⟩
  -- The expansion that was read is the one that every other run comes to.
  obtain ⟨r, expands⟩ := expands_of_poly? read
  obtain ⟨items, sum, total⟩ := poly.meets_expand_powerSum.yielded expands
  obtain ⟨s, written, same⟩ := sum.exists_toExpr named unknown (value.trans total.symm)
  exact ⟨p, s, rfl, value, written, (repeatable_expand e expands context).imp fun _ other => other ▸ same⟩

/-- The two views of polynomials agree. Every polynomial is written out as an expression that is read as it,
unless it has several terms and a degree too long to be written out. Every expression that is a polynomial in the
unknown is read as its polynomial, which is written as the expanded expression is; only a deadline can stop that,
or a degree too long to be written out that shows in the expression. -/
theorem polynomial_views_agree (context : Context) :
    (∀ p : Poly,
      (¬ IsLong p.toPolynomial → ∃ s, p.toExpr x = .ok s ∧ Meets context (Unset context) (s.poly? x) (· = some p)) ∧
      (IsLong p.toPolynomial → p.toExpr x = .error .unsupported)) ∧
    ∀ e, IsPolynomialIn x e →
      Meets context (Stopped context e.formalDegree) (e.poly? x) (fun p? =>
        ∃ p s, p? = some p ∧ p.toPolynomial = inOne e ∧ p.toExpr x = .ok s ∧
          Meets context (Interrupted context) (expand e) fun r => s.render = r.render) ∧
      ∀ r, Yields context (expand e) r → Meets context (Interrupted context) (e.poly? x) fun p? => p?.isSome := by
  constructor
  · intro p
    exact poly?_toExpr named unknown p
  · intro e poly
    constructor
    · exact poly.toExpr_poly? named unknown
    · intro r expands
      exact poly.meets_poly?_of_expands expands

end

theorem three_lt_digitBound : 3 < Rational.digitBound := by
  unfold Rational.digitBound Rational.digitLimit
  generalize digits : 4300 = n
  exact Nat.lt_of_lt_of_le (by decide) (Nat.le_self_pow (by omega) 10)

/-- The cubic `3*x^3-x/2+5` is read back, and `(x+1)^2` is read as the polynomial that its expansion shows. -/
theorem views_of_cubic_and_square :
    (∃ s, (Poly.ofList [5, -1 / 2, 0, 3]).toExpr "x" = .ok s ∧
      Yields ⟨Session.initial.scope, callWithin maxCallDepth⟩ (s.poly? "x")
        (some (Poly.ofList [5, -1 / 2, 0, 3]))) ∧
    IsPolynomialIn "x" (sum 1 [bare "x", number 1] 2) ∧
      ∃ p s r, Yields ⟨Session.initial.scope, callWithin maxCallDepth⟩ ((sum 1 [bare "x", number 1] 2).poly? "x")
          (some p) ∧ p.toExpr "x" = .ok s ∧
        Yields ⟨Session.initial.scope, callWithin maxCallDepth⟩ (expand (sum 1 [bare "x", number 1] 2)) r ∧
        s.render = r.render := by
  set context : Context := ⟨Session.initial.scope, callWithin maxCallDepth⟩
  obtain ⟨q?, readBack⟩ := Option.isSome_iff_exists.mp (show (((
      liftM ((Poly.ofList [5, -1 / 2, 0, 3]).toExpr "x") >>= fun s => s.poly? "x" :
        Engine (Option Poly)) context).run.run 0).1.toOption.isSome = true by decide +kernel)
  obtain ⟨p?, read⟩ := Option.isSome_iff_exists.mp (show ((((sum 1 [bare "x", number 1] 2).poly? "x" :
      Engine (Option Poly)) context).run.run 0).1.toOption.isSome = true by decide +kernel)
  obtain ⟨r, expanded⟩ := Option.isSome_iff_exists.mp (show (((expand (sum 1 [bare "x", number 1] 2))
      context).run.run 0).1.toOption.isSome = true by decide +kernel)
  have agree := @polynomial_views_agree "x" (by decide) (by decide) context
  clear_value context
  have short : ¬ IsLong (Poly.ofList [5, -1 / 2, 0, 3]).toPolynomial := by
    rintro ⟨-, long⟩
    have cubic : (Poly.ofList [5, -1 / 2, 0, 3]).coefficients.length = 4 := by decide +kernel
    rw [Poly.natDegree_toPolynomial, cubic] at long
    exact absurd long three_lt_digitBound.not_ge
  have square : IsPolynomialIn "x" (sum 1 [bare "x", number 1] 2) :=
    ⟨isPolynomial_square, by simp [NamesHave, names, namesAll, bare]⟩
  obtain ⟨s, written, reads⟩ := (agree.1 _).1 short
  obtain ⟨laterBack, runBack⟩ := exists_run readBack
  rw [written] at runBack
  have back : Yields context (s.poly? "x") q? := ⟨0, laterBack, runBack⟩
  obtain ⟨later, run⟩ := exists_run read
  obtain ⟨p, t, rfl, -, shown, same⟩ := (agree.2 _ square).1.returned run
  obtain ⟨last, runExpand⟩ := exists_run expanded
  exact ⟨⟨s, written, reads.yielded back ▸ back⟩, square, p, t, r, ⟨0, later, run⟩, shown, ⟨0, last, runExpand⟩,
    same.returned runExpand⟩

variable {t : Expr} {n k : ℕ} {c d q : ℚ}

theorem hasBaseKey_binomial (short : Rational.isWritable n = true) (unit : d = 1 ∨ d = -1) :
    (sum 1 [symbol 1 "x" n, number d] 1).hasBaseKey = true := by
  have writable : Rational.isWritable d = true := by
    rcases unit with rfl | rfl
    · exact isWritable_one
    · rw [isWritable_neg, isWritable_one]
  have first : ((symbol 1 "x" (n : ℚ)).termRank (symbol 1 "x" (n : ℚ)).face).hasKey = true :=
    (hasTermKey_symbol _ _ _).trans short
  have order : TermRank.le ((symbol 1 "x" (n : ℚ)).termRank (symbol 1 "x" (n : ℚ)).face)
      ((number d).termRank (number d).face) = true := by simp [TermRank.le, termRank, isNumber]
  rw [hasBaseKey, Expr.face]
  simp only [faces, List.zipWith_cons_cons, List.zipWith_nil_left, sortByRank, List.foldr_cons, List.foldr_nil,
    insertByRank, order, if_true]
  simp only [List.all_cons, first, List.all_nil, Bool.and_true, Bool.true_and, List.map_cons, List.map_nil,
    List.flatMap_cons, List.flatMap_nil, List.append_nil, Bool.and_eq_true]
  simp [termRank, isNumber, Layout.isWritable, Expr.face, singleFace, coeff, writable, isWritable_one]

theorem baseKey_ne_baseKey_sum (c d q : ℚ) (terms : List Expr) :
    (symbol c "x" q).baseKey ≠ (sum d terms 1).baseKey := by
  obtain ⟨inner, key⟩ : ∃ inner, (sum d terms 1).baseKey = "(" ++ inner ++ ")" := by
    rw [baseKey, Expr.face]
    exact ⟨_, congrArg Face.key (if_pos rfl)⟩
  rw [key, baseKey_symbol, if_neg (by decide)]
  intro same
  have chars := congrArg String.toList same
  simp at chars

def multipleOfBinomial (c : ℚ) (k n : ℕ) (d : ℚ) : Expr :=
  product c [symbol 1 "x" k, sum 1 [symbol 1 "x" n, number d] 1]

/-- What stands in parentheses does not count towards the degree. -/
theorem degree_multipleOfBinomial (c : ℚ) (k n : ℕ) (d : ℚ) : (multipleOfBinomial c k n d).face.degree = k := by
  have named : isVariableName "x" = true := by decide
  simp [multipleOfBinomial, face, faces, singleFace, named]

theorem sortTerms_multiplesOfBinomials {l : ℕ} (lower : l < k) (c d q s : ℚ) (m n : ℕ) :
    sortTerms [multipleOfBinomial c k m d, multipleOfBinomial q l n s] =
      [multipleOfBinomial c k m d, multipleOfBinomial q l n s] := by
  refine sortTerms_pair ?_
  have first : (multipleOfBinomial c k m d).isNumber = false := rfl
  have second : (multipleOfBinomial q l n s).isNumber = false := rfl
  simp [TermRank.le, termRank, first, second, degree_multipleOfBinomial, lower.ne', lower]

section

variable (nonzero : c ≠ 0) (positiveK : k ≠ 0) (positiveN : n ≠ 0) (shortK : Rational.isWritable k = true)
  (shortN : Rational.isWritable n = true) (unit : d = 1 ∨ d = -1)

include nonzero positiveK positiveN shortN unit

theorem isPolynomial_multipleOfBinomial : IsPolynomial (multipleOfBinomial c k n d) := by
  have binomial := isPolynomial_binomial positiveN shortN unit Scheme.polynomial.one
  have formed : (symbol 1 "x" (k : ℚ)).WellFormed :=
    wellFormed_symbol (k := k) (by decide) (by decide) one_ne_zero (Int.natCast_ne_zero.mpr positiveK)
  have built : BuiltBy .polynomial (symbol 1 "x" (k : ℚ)) :=
    .symbol (by decide) ⟨Rat.den_natCast k, Nat.cast_pos.mpr (Nat.pos_of_ne_zero positiveK)⟩
  refine ⟨⟨nonzero, ⟨le_rfl, ?_, ?_, ?_⟩, formed, binomial.formed, trivial⟩, .product ?_⟩
  · simpa using ⟨rfl, hasBaseKey_binomial shortN unit⟩
  · exact List.nodup_cons.mpr
      ⟨List.mem_singleton.not.mpr (baseKey_ne_baseKey_sum 1 1 k _), List.nodup_singleton _⟩
  · simpa using ⟨⟨rfl, rfl, rfl⟩, ⟨rfl, rfl, rfl⟩⟩
  · simpa using ⟨built, binomial.built⟩

include shortK

theorem hasTermKey_multipleOfBinomial : (multipleOfBinomial c k n d).hasTermKey = true := by
  have poly := isPolynomial_multipleOfBinomial nonzero positiveK positiveN shortN unit
  have keyed : (symbol 1 "x" (k : ℚ)).hasBaseKey = true := rfl
  rw [hasTermKey_eq poly.formed poly.built, multipleOfBinomial, Expr.factors, (sortFactors_perm _).all_eq]
  simp [power, shortK, isWritable_one, keyed, hasBaseKey_binomial shortN unit]

end

theorem denote_multipleOfBinomial (c : ℚ) (k n : ℕ) (d : ℚ) : denote (multipleOfBinomial c k n d) =
    MvPolynomial.monomial (Finsupp.single "x" (k + n)) c + MvPolynomial.monomial (Finsupp.single "x" k) (c * d) := by
  have power (m : ℕ) (a : ℚ) : MvPolynomial.monomial (Finsupp.single "x" m) a = C a * X "x" ^ m := by
    rw [MvPolynomial.X_pow_eq_monomial, MvPolynomial.C_mul_monomial, mul_one]
  rw [power, power, C.map_mul]
  simp only [multipleOfBinomial, denote, denoteProduct, denoteSum, Rat.num_natCast, Int.toNat_natCast, Rat.num_one,
    Int.toNat_one, map_one]
  ring

theorem names_multipleOfBinomial (c : ℚ) (k n : ℕ) (d : ℚ) : NamesHave (· = "x") (multipleOfBinomial c k n d) := by
  simp [NamesHave, multipleOfBinomial, names, namesAll]

theorem inOne_multipleOfBinomial (c : ℚ) (k n : ℕ) (d : ℚ) : inOne (multipleOfBinomial c k n d) =
    Polynomial.C c * (Polynomial.X ^ (k + n) + Polynomial.C d * Polynomial.X ^ k) := by
  rw [multipleOfBinomial, inOne_product]
  simp only [List.map_cons, List.map_nil, List.prod_cons, List.prod_nil, inOne_symbol, inOne_sum, inOne_number,
    List.sum_cons, List.sum_nil, map_one, Rat.num_natCast, Int.toNat_natCast, Rat.num_one, Int.toNat_one]
  ring

/-- Its first term is too long, so it is not expanded. -/
theorem not_expands_multipleOfBinomial (nonzero : c ≠ 0) (positiveK : k ≠ 0) (positiveN : n ≠ 0)
    (shortN : Rational.isWritable n = true) (unit : d = 1 ∨ d = -1)
    (long : Rational.isWritable (k + n : ℕ) = false) :
    ¬ Yields context (expandTree (multipleOfBinomial c k n d)) r := by
  intro yields
  have poly := isPolynomial_multipleOfBinomial nonzero positiveK positiveN shortN unit
  have represents := (meets_expandTree poly le_rfl).yielded yields
  rw [denote_multipleOfBinomial] at represents
  have different : Finsupp.single "x" (k + n) ≠ Finsupp.single "x" k := fun same =>
    absurd (Finsupp.single_injective "x" same) (by omega)
  have other : c * d ≠ 0 := mul_ne_zero nonzero (by rcases unit with rfl | rfl <;> norm_num)
  have present : Finsupp.single "x" (k + n) ∈ (MvPolynomial.monomial (Finsupp.single "x" (k + n)) c +
      MvPolynomial.monomial (Finsupp.single "x" k) (c * d)).support := by
    simp [MvPolynomial.coeff_monomial, positiveN, nonzero]
  have second : Finsupp.single "x" k ∈ (MvPolynomial.monomial (Finsupp.single "x" (k + n)) c +
      MvPolynomial.monomial (Finsupp.single "x" k) (c * d)).support := by
    simp [MvPolynomial.coeff_monomial, positiveN, other]
  have occurs : Finsupp.single "x" (k + n) "x" ≠ 0 := by
    rw [Finsupp.single_eq_same]
    omega
  -- The expanded sum would hold a key for each of its two powers.
  have writable := represents.isWritable present second different occurs
  rw [Finsupp.single_eq_same, long] at writable
  cases writable

/-- In a sum that was expanded every term was. -/
theorem expands_terms {terms : List Expr} (expands : Yields context (expand (sum c terms q)) r) (member : t ∈ terms) :
    ∃ guard s, Yields (block context guard) (expandTree t) s := by
  obtain ⟨guard, -, looks, later, inside⟩ := expands.bind
  have total : Yields (block context guard) (expandTree (sum c terms q)) r := ⟨looks, later, inside⟩
  rw [expandTree, expandSum_eq] at total
  obtain ⟨sum, all, -⟩ := total.bind
  obtain ⟨before, after, here⟩ := all.of_foldlM member
  obtain ⟨s, expanded, -⟩ := here.bind
  exact ⟨guard, s, expanded⟩

/-- `x^2 + x`, written as `x^2*(x^n+1) - x*(x^(n+1)-1)`. -/
def cancelling (n : ℕ) : Expr := sum 1 [multipleOfBinomial 1 2 n 1, multipleOfBinomial (-1) 1 (n + 1) (-1)] 1

theorem inOne_cancelling (n : ℕ) : inOne (cancelling n) = Polynomial.X ^ 2 + Polynomial.X := by
  simp only [cancelling, inOne_sum, List.map_cons, List.map_nil, List.sum_cons, List.sum_nil, inOne_multipleOfBinomial,
    map_one, map_neg, Rat.num_one, Int.toNat_one]
  ring

theorem isWritable_of_natCast_le (le : k ≤ n) (short : Rational.isWritable n = true) :
    Rational.isWritable k = true := by
  rw [isWritable_natCast, decide_eq_true_eq] at short ⊢
  omega

theorem isPolynomialIn_cancelling (positive : n ≠ 0) (short : Rational.isWritable (n + 1 : ℕ) = true) :
    IsPolynomialIn "x" (cancelling n) := by
  have shortN := isWritable_of_natCast_le (Nat.le_succ n) short
  have two := isWritable_of_natCast_le (show 2 ≤ n + 1 by omega) short
  have one := isWritable_of_natCast_le (show 1 ≤ n + 1 by omega) short
  have first := isPolynomial_multipleOfBinomial one_ne_zero two_ne_zero positive shortN (.inl rfl)
  have second := isPolynomial_multipleOfBinomial (neg_ne_zero.mpr one_ne_zero) one_ne_zero (Nat.succ_ne_zero n)
    short (.inr rfl)
  have keyFirst := hasTermKey_multipleOfBinomial one_ne_zero two_ne_zero positive two shortN (.inl rfl)
  have keySecond := hasTermKey_multipleOfBinomial (neg_ne_zero.mpr one_ne_zero) one_ne_zero (Nat.succ_ne_zero n) one
    short (.inr rfl)
  -- Terms of one key have one value up to their coefficients; for the unknown one, these have two and zero.
  have different : (multipleOfBinomial 1 2 n 1).termKey ≠ (multipleOfBinomial (-1) 1 (n + 1) (-1)).termKey := by
    intro same
    have values := eval_unit_eq_of_termKey_eq first.built first.formed second.built second.formed same fun _ => 1
    simp [multipleOfBinomial, unit, withCoeff, eval, evalProduct, evalSum] at values
  refine ⟨⟨⟨one_ne_zero, one_ne_zero, ⟨le_rfl, ?_, ?_, ?_, ?_, ?_, ?_⟩, first.formed, second.formed, trivial⟩,
    .sum ?_ (fun _ _ => trivial) Scheme.polynomial.one⟩, ?_⟩
  · simpa using ⟨keyFirst, keySecond⟩
  · exact List.nodup_cons.mpr ⟨List.mem_singleton.not.mpr different, List.nodup_singleton _⟩
  · simp [multipleOfBinomial, isPlainSum]
  · simp [multipleOfBinomial, coeff]
  · exact (by decide +kernel : commonDivisor [1, -1] = 1)
  · rw [sortTerms_multiplesOfBinomials one_lt_two]
    simp [multipleOfBinomial, coeff]
  · simpa using ⟨first.built, second.built⟩
  · exact NamesHave.sum.mpr (by simp [names_multipleOfBinomial])

/-- Where the first term is too long to be multiplied out, nothing is read. -/
theorem not_reads_cancelling (positive : n ≠ 0) (short : Rational.isWritable (n + 1 : ℕ) = true)
    (long : Rational.isWritable (2 + n : ℕ) = false) {p? : Option Poly} :
    ¬ Yields context ((cancelling n).poly? "x") p? := by
  intro read
  obtain ⟨r, expands⟩ := expands_of_poly? read
  obtain ⟨guard, s, first⟩ := expands_terms expands List.mem_cons_self
  have shortN := isWritable_of_natCast_le (Nat.le_succ n) short
  exact not_expands_multipleOfBinomial one_ne_zero two_ne_zero positive shortN (.inl rfl) long first

/-- The expression `x^2*(x^n+1) - x*(x^(n+1)-1)` is a polynomial, and it is `x^2+x`. But where `x^(n+2)` is too
long to be written out, it is not read as that. -/
theorem cancelling_long_powers_not_read :
    IsPolynomialIn "x" (cancelling (Rational.digitBound - 2)) ∧
      inOne (cancelling (Rational.digitBound - 2)) = Polynomial.X ^ 2 + Polynomial.X ∧
      ∀ context p?, ¬ Yields context ((cancelling (Rational.digitBound - 2)).poly? "x") p? := by
  have three := three_lt_digitBound
  have positive : Rational.digitBound - 2 ≠ 0 := by omega
  have short : Rational.isWritable (Rational.digitBound - 2 + 1 : ℕ) = true := by
    rw [isWritable_natCast, decide_eq_true_eq]
    omega
  have long : Rational.isWritable (2 + (Rational.digitBound - 2) : ℕ) = false := by
    rw [isWritable_natCast, decide_eq_false_iff_not]
    omega
  exact ⟨isPolynomialIn_cancelling positive short, inOne_cancelling _, fun _ _ =>
    not_reads_cancelling positive short long⟩

end ExactAlgebra.Expr
