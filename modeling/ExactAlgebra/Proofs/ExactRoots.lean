import ExactAlgebra.Solve.Polynomial
import ExactAlgebra.Proofs.ComplexValue
import ExactAlgebra.Proofs.Computation
import ExactAlgebra.Proofs.MultiplicationValue
import ExactAlgebra.Proofs.RationalRoots
import Mathlib

/-! Exact roots of polynomials. When no more than a quadratic polynomial is left after the rational
roots were divided out, what is returned are the complex roots, each once. -/
namespace ExactAlgebra
open Engine

namespace Expr

variable {ρ : Reading}

theorem sub_numbers (x y : ℚ) : sub (number x) (number y) = .ok (number (x - y)) := by
  rw [sub, show (number y).neg = number (-y) from rfl, add_numbers, sub_eq_add_neg]

theorem scale_number (x c : ℚ) : (number x).scale c = number (x * c) := by
  unfold scale
  split
  next zeroed => rw [zeroed, mul_zero, zero]
  next => rfl

/-- Multiplying by a number multiplies the value. -/
theorem complexValue_mul_number {e r : Expr} {c : ℚ} (returned : mul e (number c) = .ok r) :
    complexValue ρ r = complexValue ρ e * c := by
  obtain ⟨n, limit⟩ := enough_for_one e (number c)
  rw [mul, limit] at returned
  unfold mulWithin at returned
  split at returned
  next zeroed =>
    cases returned
    rw [Bool.or_eq_true] at zeroed
    rw [(addsUp_complexValue ρ).of_isZero (e := zero) rfl]
    rcases zeroed with left | right
    · rw [(addsUp_complexValue ρ).of_isZero left, zero_mul]
    · have none : c = 0 := by simpa [isZero] using right
      rw [none, Rat.cast_zero, mul_zero]
  split at returned
  next x =>
    cases returned
    rw [complexValue_scale, complexValue, complexValue, mul_comm]
  next same _ =>
    cases returned
    cases same
    rw [complexValue_scale, mul_comm]
  next other => exact absurd rfl (other c)

theorem mul_numbers (x y : ℚ) : mul (number x) (number y) = .ok (number (x * y)) := by
  obtain ⟨n, limit⟩ := enough_for_one (number x) (number y)
  rw [mul, limit]
  unfold mulWithin
  split
  next zeroed =>
    have none : x * y = 0 := by simpa [isZero] using zeroed
    rw [none, zero]
  next =>
    dsimp only
    rw [scale_number, mul_comm]

/-- Dividing by a number divides the value. -/
theorem complexValue_div_number {e r : Expr} {c : ℚ} (nonzero : c ≠ 0)
    (returned : div e (number c) = .ok r) : complexValue ρ r = complexValue ρ e / c := by
  have proper : (number c).isZero = false := by simpa [isZero] using nonzero
  have inverse : inv (number c) = .ok (number c⁻¹) := by
    rw [inv, Rational.invert, if_neg nonzero]
    rfl
  rw [div, proper, inverse] at returned
  rw [complexValue_mul_number returned, Rat.cast_inv, div_eq_mul_inv]

/-- Adding a number to something that is no sum adds their values. -/
theorem complexValue_add_number {x : ℚ} {e r : Expr} (formed : e.WellFormed)
    (proper : e.isSum = false) (returned : add (number x) e = .ok r) :
    complexValue ρ r = x + complexValue ρ e := by
  cases numberE : e.isNumber with
  | true =>
    cases e with
    | number y =>
      rw [add_numbers] at returned
      cases returned
      rw [complexValue, complexValue, Rat.cast_add]
    | _ => cases numberE
  | false =>
    have flat : e.isPlainSum = false := by
      cases e with
      | sum => cases proper
      | _ => rfl
    have key := termKey_ne_number formed flat numberE
    -- The terms that meet are numbers and multiples of the second operand.
    let kept (t : Expr) : Prop := (∃ c, t = number c) ∨ t.unit = e.unit
    refine (addsUp_complexValue ρ).add kept ?_ ?_ ?_ (show (number x).WellFormed from trivial) formed
      (.inl ⟨x, rfl⟩) (.inr rfl) returned
    · rintro t (⟨c, rfl⟩ | multiple) d
      · exact .inl ⟨d, rfl⟩
      · exact .inr (by rw [unit, withCoeff_withCoeff]; exact multiple)
    · rintro c terms p (⟨d, same⟩ | multiple)
      · cases same
      · cases e <;> cases multiple
        cases proper
    · rintro t u - - (⟨c, rfl⟩ | multipleT) (⟨d, rfl⟩ | multipleU) keys
      · rfl
      · rw [multipleU] at keys
        rw [unit, unit, termKey_withCoeff, termKey_withCoeff] at keys
        exact absurd keys.symm key
      · rw [multipleT] at keys
        rw [unit, unit, termKey_withCoeff, termKey_withCoeff] at keys
        exact absurd keys key
      · rw [multipleT, multipleU]

/-- What a square root of a number is: no sum. -/
theorem isSum_sqrt_number {d : ℚ} {r : Expr} (returned : sqrt (number d) = .ok r) :
    r.WellFormed ∧ r.isSum = false := by
  have root {m : Expr} (isRoot : IsRoot m) : m.isSum = false := by
    cases isRoot <;> rfl
  have half : (1 / 2 : ℚ).den ≠ 1 := by
    rw [half_num_den.2]
    decide
  rw [sqrt_number] at returned
  refine ⟨powNumber_wellFormed returned, ?_⟩
  rcases powNumber_half_cases returned with
    ⟨_, rfl⟩ | ⟨_, rfl⟩ | ⟨positive, rooted⟩ | ⟨negative, m, rooted, rfl⟩
  · rfl
  · rfl
  · exact root (rootOfPositive_isRoot positive half rooted)
  · have isRoot := rootOfPositive_isRoot (neg_pos.mpr negative) half rooted
    cases isRoot with
    | number c =>
      rw [timesSymbol, Expr.scale]
      split <;> rfl
    | root => rfl

end Expr

open ExactAlgebra.Expr

variable {context : Context} {ρ : Reading}

/-- The values are the solutions, each once. -/
def ListsSolutions (ρ : Reading) (es : List Expr) (solves : ℂ → Prop) : Prop :=
  (es.map (complexValue ρ)).Nodup ∧ ∀ z, z ∈ es.map (complexValue ρ) ↔ solves z

theorem ListsSolutions.congr {es : List Expr} {solves others : ℂ → Prop}
    (lists : ListsSolutions ρ es solves) (same : ∀ z, solves z ↔ others z) :
    ListsSolutions ρ es others := ⟨lists.1, fun z => (lists.2 z).trans (same z)⟩

theorem linearRoots_spec {a b : ℚ} (nonzero : a ≠ 0) {es : List Expr}
    (returned : linearRoots (number b) (number a) = .ok es) :
    ListsSolutions ρ es fun z => (a : ℂ) * z + b = 0 := by
  obtain ⟨q, divided, returned⟩ := Outcome.bind_ok returned
  cases returned
  have value : complexValue ρ q.neg = -((b : ℂ) / a) := by
    rw [complexValue_neg, complexValue_div_number nonzero divided, complexValue]
  have nonzeroC : (a : ℂ) ≠ 0 := Rat.cast_ne_zero.mpr nonzero
  refine ⟨by simp, fun z => ?_⟩
  rw [List.map_singleton, List.mem_singleton, value]
  constructor
  · rintro rfl
    field_simp
    ring
  · intro solves
    field_simp
    linear_combination solves

theorem returns_expand_number (d : ℚ) : Returns context (expand (number d)) (· = number d) := by
  unfold expand guarded
  refine Meets.bind _ (Meets.anyway _) fun guard _ => Meets.inScope ?_
  exact Meets.pure rfl

theorem returns_number {x : Except Fault Expr} {d : ℚ} (computed : x = .ok (number d)) :
    Returns context (liftM x : Engine Expr) (· = number d) := by
  refine Returns.lift fun r returned => ?_
  exact Except.ok.inj (returned.symm.trans computed)

theorem returns_quadraticRoots {a b c : ℚ} (nonzero : a ≠ 0) :
    Returns context (quadraticRoots (number c) (number b) (number a)) fun es =>
      ListsSolutions ρ es fun z => (a : ℂ) * (z * z) + b * z + c = 0 := by
  have nonzeroC : (a : ℂ) ≠ 0 := Rat.cast_ne_zero.mpr nonzero
  have double : a * 2 ≠ 0 := mul_ne_zero nonzero two_ne_zero
  unfold quadraticRoots
  refine Meets.bind _ (returns_number (mul_numbers b b)) ?_
  rintro _ rfl
  refine Meets.bind _ (returns_number (mul_numbers a c)) ?_
  rintro _ rfl
  rw [scale_number, scale_number]
  refine Meets.bind _ (returns_number (sub_numbers _ _)) ?_
  rintro _ rfl
  refine Meets.bind _ (returns_expand_number _) ?_
  rintro _ rfl
  set d := b * b - a * c * 4 with discriminant
  have formula : discrim (a : ℂ) b c = d := by
    rw [discrim, discriminant]
    push_cast
    ring
  dsimp only
  split
  next vanishes =>
    have zero : d = 0 := by simpa [isZero] using vanishes
    refine Meets.bind _ (Returns.lift fun r divided =>
      (@complexValue_div_number ρ _ _ _ double divided)) fun r value => Meets.pure ?_
    refine ⟨by simp, fun z => ?_⟩
    rw [zero, Rat.cast_zero] at formula
    beta_reduce
    rw [List.map_singleton, List.mem_singleton, value, complexValue_neg, complexValue,
      quadratic_eq_zero_iff_of_discrim_eq_zero nonzeroC formula]
    push_cast
    rw [mul_comm (a : ℂ) 2]
  next proper =>
    have distinct : d ≠ 0 := by simpa [isZero] using proper
    refine Meets.bind _ (Returns.lift fun s rooted => And.intro (isSum_sqrt_number rooted)
      (@complexValue_sqrt_number ρ _ _ rooted)) fun s root => ?_
    obtain ⟨⟨formed, flat⟩, square⟩ := root
    have flatNeg : s.neg.isSum = false := by
      cases s with
      | sum => cases flat
      | _ => rfl
    refine Meets.bind _ (Returns.lift fun sum added =>
      @complexValue_add_number ρ _ _ _ formed flat added) fun sum valueSum => ?_
    refine Meets.bind _ (Returns.lift fun first divided =>
      @complexValue_div_number ρ _ _ _ double divided) fun first valueFirst => ?_
    refine Meets.bind _ (Returns.lift fun difference subtracted =>
      @complexValue_add_number ρ _ _ _ formed.neg flatNeg subtracted) fun difference valueDifference => ?_
    refine Meets.bind _ (Returns.lift fun second divided =>
      @complexValue_div_number ρ _ _ _ double divided) fun second valueSecond => Meets.pure ?_
    set w := complexValue ρ s
    have rootNonzero : w ≠ 0 := by
      intro zero
      rw [zero, zero_pow two_ne_zero] at square
      exact distinct (Rat.cast_eq_zero.mp square.symm)
    have below : ((a * 2 : ℚ) : ℂ) = 2 * a := by
      push_cast
      ring
    have belowNonzero : (2 * a : ℂ) ≠ 0 := mul_ne_zero two_ne_zero nonzeroC
    rw [valueSum, below, Rat.cast_neg] at valueFirst
    rw [valueDifference, complexValue_neg, below, Rat.cast_neg, ← sub_eq_add_neg] at valueSecond
    rw [ListsSolutions, List.map_cons, List.map_singleton, valueFirst, valueSecond]
    refine ⟨?_, fun z => ?_⟩
    · rw [List.nodup_cons, List.mem_singleton]
      refine ⟨fun same => rootNonzero ?_, List.nodup_singleton _⟩
      have numerators := (div_left_inj' belowNonzero).mp same
      have twice : 2 * w = 0 := by linear_combination numerators
      exact (mul_eq_zero.mp twice).resolve_left two_ne_zero
    · have factored : discrim (a : ℂ) b c = w * w := by rw [formula, ← square, sq]
      rw [List.mem_cons, List.mem_singleton, quadratic_eq_zero_iff nonzeroC factored]
      rfl

/-- What is left when the linear factors of some roots were divided out. -/
def Poly.cofactor (p : Poly) (roots : List ℚ) : Poly := roots.foldl Poly.withoutRoot p

namespace Poly
open Polynomial

/-- The cofactor has none of the roots that were divided out, and all others. -/
theorem cofactor_spec {p : Poly} (nonzero : p.toPolynomial ≠ 0) (roots : List ℚ) :
    (p.cofactor roots).toPolynomial ≠ 0 ∧
      (∀ r ∈ roots, (p.cofactor roots).toPolynomial.eval r ≠ 0) ∧
      ∃ factors, p.toPolynomial = (p.cofactor roots).toPolynomial * factors ∧
        ∀ z : ℂ, aeval z factors = 0 → ∃ r ∈ roots, z = r := by
  induction roots generalizing p with
  | nil => exact ⟨nonzero, by simp, 1, by simp [cofactor], by simp⟩
  | cons root roots ih =>
    obtain ⟨-, absent, multiplicity, product⟩ := withoutRoot_spec nonzero root
    have rest : (p.withoutRoot root).toPolynomial ≠ 0 := by
      intro zero
      rw [zero, zero_mul] at product
      exact nonzero product
    obtain ⟨proper, none, factors, split, only⟩ := ih rest
    refine ⟨proper, ?_, factors * (X - C root) ^ multiplicity, ?_, ?_⟩
    · intro r member
      rcases List.mem_cons.mp member with rfl | later
      · intro vanishes
        rw [split, eval_mul] at absent
        exact absent (by rw [cofactor, List.foldl_cons] at vanishes; rw [cofactor, vanishes, zero_mul])
      · exact none r later
    · rw [← mul_assoc, product, split]
      rfl
    · intro z vanishes
      rw [map_mul, map_pow, map_sub, aeval_X, aeval_C] at vanishes
      rcases mul_eq_zero.mp vanishes with other | power
      · obtain ⟨r, member, same⟩ := only z other
        exact ⟨r, List.mem_cons_of_mem _ member, same⟩
      · exact ⟨root, List.mem_cons_self, sub_eq_zero.mp (eq_zero_of_pow_eq_zero power)⟩

theorem ofCoefficients_eq_zero {cs : List ℚ} (zeros : ∀ c ∈ cs, c = 0) : ofCoefficients cs = 0 := by
  induction cs with
  | nil => rfl
  | cons c cs ih =>
    rw [ofCoefficients, zeros c List.mem_cons_self,
      ih fun d later => zeros d (List.mem_cons_of_mem _ later)]
    simp

/-- A polynomial of two terms is a constant beside a power above the second. -/
theorem eq_of_isTwoTerm {p : Poly} (twoTerm : p.isTwoTerm = true) :
    2 < p.toPolynomial.natDegree ∧ p.leading ≠ 0 ∧ p.coeff 0 ≠ 0 ∧
      p.toPolynomial = C p.leading * X ^ p.toPolynomial.natDegree + C (p.coeff 0) := by
  simp only [isTwoTerm, Bool.and_eq_true, decide_eq_true_eq] at twoTerm
  obtain ⟨⟨high, constant⟩, between⟩ := twoTerm
  have nonzero := toPolynomial_ne_zero_of_degree (p := p) (by omega)
  have lead : p.leading ≠ 0 := by
    rw [leading_eq]
    exact leadingCoeff_ne_zero.mpr nonzero
  rw [degree_eq nonzero] at high
  refine ⟨by exact_mod_cast high, lead, constant, ?_⟩
  have degrees := natDegree_toPolynomial p
  cases shape : p.coefficients with
  | nil => exact absurd ((toPolynomial_eq_zero p).mpr shape) nonzero
  | cons b cs =>
    rcases List.eq_nil_or_concat cs with none | ⟨zeros, a, rfl⟩
    · rw [shape, none] at degrees
      simp only [List.length_cons, List.length_nil] at degrees
      omega
    rw [List.concat_eq_append] at shape
    rw [shape] at between degrees
    have flat : ofCoefficients zeros = 0 := by
      refine ofCoefficients_eq_zero fun c member => ?_
      simpa using List.all_eq_true.mp between c (by simpa using member)
    have leadingIs : p.leading = a := by
      rw [leading, shape, ← List.cons_append, List.getLast?_concat, Option.getD_some]
    have constantIs : p.coeff 0 = b := by rw [coeff, shape, List.getD_cons_zero]
    have degreeIs : p.toPolynomial.natDegree = zeros.length + 1 := by
      rw [degrees]
      simp
    rw [degreeIs, leadingIs, constantIs, toPolynomial, shape, ofCoefficients, ofCoefficients_append, flat]
    simp only [ofCoefficients]
    ring

theorem returns_divideOutRoot (p : Poly) (root : ℚ) :
    Returns context (p.divideOutRoot root) (· = p.withoutRoot root) := by
  unfold divideOutRoot
  refine Meets.bind _ (Meets.anyway _) fun _ _ => ?_
  refine Meets.bind _ (Meets.anyway _) fun _ _ => ?_
  exact Meets.pure rfl

/-- What is left without its rational roots is solved as a linear or quadratic equation. -/
theorem returns_irrationalRoots {q : Poly} (nonzero : q.toPolynomial ≠ 0)
    (small : q.toPolynomial.natDegree ≤ 2) :
    Returns context q.irrationalRoots fun es =>
      ListsSolutions ρ es fun z => aeval z q.toPolynomial = 0 := by
  have length := natDegree_toPolynomial q
  have last := q.normal
  have value (z : ℂ) := aeval_ofCoefficients q.coefficients z
  unfold irrationalRoots
  rw [toPolynomial]
  rcases shape : q.coefficients with _ | ⟨c, _ | ⟨b, _ | ⟨a, _ | ⟨d, cs⟩⟩⟩⟩
  · exact absurd ((toPolynomial_eq_zero q).mpr shape) nonzero
  · have constant : c ≠ 0 := by simpa [shape] using last
    refine Meets.pure ⟨by simp, fun z => ?_⟩
    beta_reduce
    rw [← shape, value, shape]
    simpa using constant
  · have lead : b ≠ 0 := by simpa [shape] using last
    refine (Returns.lift fun es returned => linearRoots_spec lead returned).imp fun es lists =>
      lists.congr fun z => ?_
    rw [← shape, value, shape]
    simp
  · have lead : a ≠ 0 := by simpa [shape] using last
    refine (returns_quadraticRoots lead).imp fun es lists => lists.congr fun z => ?_
    rw [← shape, value, shape]
    simp only [List.foldr_cons, List.foldr_nil, eq_ratCast, zero_mul, zero_add]
    rw [add_mul, mul_assoc]
  · rw [shape] at length
    simp only [List.length_cons] at length
    omega

theorem aeval_ratCast (q : ℚ[X]) (r : ℚ) : aeval (r : ℂ) q = (q.eval r : ℚ) := by
  rw [← eq_ratCast (algebraMap ℚ ℂ), aeval_algebraMap_apply, coe_aeval_eq_eval, eq_ratCast]

theorem returns_findRoots (p : Poly) :
    Returns context p.findRoots fun roots => ∃ limit, roots = p.rationalRoots limit := by
  unfold findRoots
  exact Meets.bind _ (Meets.anyway _) fun limit _ => Meets.pure ⟨limit, rfl⟩

/-- The cascade is sound and complete over the complex numbers: unless the polynomial is one of two
terms, or more than a quadratic one is left when the rational roots that were found are divided out,
the values of what is returned are its complex roots, each once. -/
theorem roots_are_the_complex_roots {p : Poly} {roots : List ℚ} {es : List Expr}
    {looks mid later : ℕ} (nonconstant : 1 ≤ p.toPolynomial.natDegree)
    (other : ¬ ∃ (a b : ℚ) (n : ℕ), 2 < n ∧ a ≠ 0 ∧ b ≠ 0 ∧ p.toPolynomial = C a * X ^ n + C b)
    (found : (p.findRoots context).run.run looks = (.ok roots, mid))
    (left : (p.cofactor roots).toPolynomial.natDegree ≤ 2)
    (returned : (p.roots context).run.run looks = (.ok es, later)) :
    (es.map (complexValue ρ)).Nodup ∧
      ∀ z, z ∈ es.map (complexValue ρ) ↔ aeval z p.toPolynomial = 0 := by
  have nonzero : p.toPolynomial ≠ 0 := by
    intro zero
    rw [zero, natDegree_zero] at nonconstant
    omega
  have notTwoTerm : p.isTwoTerm = false := by
    rw [Bool.eq_false_iff]
    intro twoTerm
    obtain ⟨high, lead, constant, same⟩ := eq_of_isTwoTerm twoTerm
    exact other ⟨_, _, _, high, lead, constant, same⟩
  obtain ⟨limit, rfl⟩ := (returns_findRoots p).returned found
  obtain ⟨distinct, sound⟩ := rationalRoots_sound limit p
  set roots := p.rationalRoots limit
  obtain ⟨proper, absent, factors, product, only⟩ := cofactor_spec nonzero roots
  -- The search for the rational roots has run; what is left runs after it.
  have rest : Returns context (do
      let rest ← roots.foldlM divideOutRoot p
      return roots.map number ++ (← rest.irrationalRoots)) fun es =>
        ∃ others, es = roots.map number ++ others ∧
          ListsSolutions ρ others fun z => aeval z (p.cofactor roots).toPolynomial = 0 := by
    refine Meets.bind _ (Returns.foldlM fun q r _ => returns_divideOutRoot q r) ?_
    rintro _ rfl
    exact Meets.bind _ (returns_irrationalRoots proper left) fun others lists =>
      Meets.pure ⟨others, rfl, lists⟩
  have run : (p.roots context).run.run looks = ((do
      let rest ← roots.foldlM divideOutRoot p
      return roots.map number ++ (← rest.irrationalRoots) : Engine (List Expr)) context).run.run mid := by
    rw [Poly.roots, if_neg (by rw [notTwoTerm]; exact Bool.false_ne_true), run_bind, found]
  rw [run] at returned
  obtain ⟨others, rfl, distinctOthers, solutions⟩ := rest.returned returned
  have numbers : (roots.map number).map (complexValue ρ) = roots.map (Rat.cast : ℚ → ℂ) := by
    rw [List.map_map]
    rfl
  rw [List.map_append, numbers]
  constructor
  · rw [List.nodup_append]
    refine ⟨distinct.map Rat.cast_injective, distinctOthers, ?_⟩
    rintro _ inRoots z inOthers rfl
    obtain ⟨r, member, rfl⟩ := List.mem_map.mp inRoots
    have vanishes : aeval (r : ℂ) (p.cofactor roots).toPolynomial = 0 := (solutions r).mp inOthers
    rw [aeval_ratCast] at vanishes
    exact absent r member (Rat.cast_eq_zero.mp vanishes)
  · intro z
    rw [List.mem_append, solutions, product, map_mul, mul_eq_zero]
    constructor
    · rintro (inRoots | vanishes)
      · obtain ⟨r, member, rfl⟩ := List.mem_map.mp inRoots
        have root := sound r member
        rw [product, eval_mul] at root
        rwa [aeval_ratCast, aeval_ratCast, Rat.cast_eq_zero, Rat.cast_eq_zero, ← mul_eq_zero]
      · exact .inl vanishes
    · rintro (vanishes | divided)
      · exact .inr vanishes
      · obtain ⟨r, member, rfl⟩ := only z divided
        exact .inl (List.mem_map_of_mem member)

/-- The double root one and the square roots of two, of a polynomial of degree four. -/
theorem roots_of_double_one_and_sqrt_two :
    ∃ es later,
      ((ofList [-2, 4, -1, -2, 1]).roots
        ⟨⟨Settings.initial, .idle, .still, [], fun _ => []⟩, fun _ _ _ => throw .unsupported⟩).run.run 0 =
          (.ok es, later) ∧
        ∀ ρ, (es.map (complexValue ρ)).Nodup ∧
          ∀ z, z ∈ es.map (complexValue ρ) ↔ aeval z (ofList [-2, 4, -1, -2, 1]).toPolynomial = 0 := by
  set context : Context := ⟨⟨Settings.initial, .idle, .still, [], fun _ => []⟩, fun _ _ _ => throw .unsupported⟩
  obtain ⟨mid, found⟩ := exists_run
    (show ((findRoots (ofList [-2, 4, -1, -2, 1]) context).run.run 0).1.toOption = some [1] by
      decide +kernel)
  obtain ⟨es, answer⟩ := Option.isSome_iff_exists.mp
    (show ((roots (ofList [-2, 4, -1, -2, 1]) context).run.run 0).1.toOption.isSome = true by
      decide +kernel)
  obtain ⟨later, returned⟩ := exists_run answer
  refine ⟨es, later, returned, fun ρ => roots_are_the_complex_roots ?_ ?_ found ?_ returned⟩
  · rw [natDegree_toPolynomial]
    decide +kernel
  · rintro ⟨a, b, n, high, -, -, same⟩
    have linear := congrArg (fun f => f.coeff 1) same
    simp only [coeff_toPolynomial, coeff_add, coeff_C_mul, coeff_X_pow, coeff_C] at linear
    have four : (ofList [-2, 4, -1, -2, 1]).coeff 1 = 4 := by decide +kernel
    rw [four, if_neg (by omega), if_neg (by omega)] at linear
    norm_num at linear
  · rw [natDegree_toPolynomial]
    decide +kernel

end Poly

end ExactAlgebra
