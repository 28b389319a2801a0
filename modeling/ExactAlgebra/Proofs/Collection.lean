import ExactAlgebra.Algebra.Polynomial
import ExactAlgebra.Proofs.Expansion
import ExactAlgebra.Proofs.Occurrence
import ExactAlgebra.Proofs.Univariate
import Mathlib

/-! Collecting by an unknown. The terms of an expanded polynomial are sorted by their power of the
unknown; the coefficients that come out, times these powers, add up to the polynomial. -/
namespace ExactAlgebra.Expr
open Engine
open MvPolynomial (C X)

variable {x : String} {e t : Expr}

/-- In a product without like factors the one with a key stands between others. -/
theorem split_of_find? {factors : List Expr} (distinct : (factors.map baseKey).Nodup) {f : Expr}
    (found : factors.find? (·.baseKey == x) = some f) :
    ∃ before after, factors = before ++ f :: after ∧
      (factors.filter fun g => g.baseKey != x) = before ++ after := by
  obtain ⟨key, before, after, rfl, none⟩ := List.find?_eq_some_iff_append.mp found
  rw [beq_iff_eq] at key
  refine ⟨before, after, rfl, ?_⟩
  have left : ∀ g ∈ before, (g.baseKey != x) = true := fun g member => by simpa using none g member
  have right : ∀ g ∈ after, (g.baseKey != x) = true := by
    intro g member
    rw [List.map_append, List.map_cons] at distinct
    have other := (List.nodup_cons.mp (List.nodup_append.mp distinct).2.1).1
    rw [bne_iff_ne]
    intro same
    exact other (List.mem_map.mpr ⟨g, member, same.trans key.symm⟩)
  rw [List.filter_append, List.filter_cons, List.filter_eq_self.mpr left, List.filter_eq_self.mpr right]
  simp [key]

section Computed

variable {R : Type} [CommRing R]

/-- A product of several factors has the product of their values. -/
theorem value_mulAll {kept : Expr → Prop} {value : Expr → R}
    (times : ∀ {a b r}, kept a → kept b → mul a b = .ok r → kept r ∧ value r = value a * value b)
    {first r : Expr} {factors : List Expr} (keptFirst : kept first) (each : ∀ f ∈ factors, kept f)
    (returned : mulAll first factors = .ok r) :
    kept r ∧ value r = value first * (factors.map value).prod := by
  induction factors generalizing first with
  | nil =>
    cases returned
    exact ⟨keptFirst, by simp⟩
  | cons f rest ih =>
    rw [mulAll, List.foldlM_cons] at returned
    obtain ⟨next, multiplied, returned⟩ := Outcome.bind_ok returned
    obtain ⟨keptNext, twice⟩ := times keptFirst (each f List.mem_cons_self) multiplied
    obtain ⟨keptR, product⟩ := ih keptNext (fun g later => each g (List.mem_cons_of_mem _ later)) returned
    refine ⟨keptR, ?_⟩
    rw [product, twice, List.map_cons, List.prod_cons, mul_assoc]

variable [Algebra ℚ R]

/-- Values with which sums and products compute; the powers of an unknown are those of its value. -/
structure Computes (kept : Expr → Prop) (value : Expr → R) (x : String) (y : R) : Prop where
  formed : ∀ {e}, kept e → e.WellFormed
  number : ∀ c, kept (number c) ∧ value (number c) = algebraMap ℚ R c
  add : ∀ {a b r}, kept a → kept b → add a b = .ok r → kept r ∧ value r = value a + value b
  mul : ∀ {a b r}, kept a → kept b → mul a b = .ok r → kept r ∧ value r = value a * value b
  product : ∀ {c factors}, kept (product c factors) →
    (∀ f ∈ factors, kept f) ∧ value (product c factors) = algebraMap ℚ R c * (factors.map value).prod
  power : ∀ {f n}, naturalPower? x f = some n → value f = algebraMap ℚ R f.coeff * y ^ n

/-- The sum of the values of coefficients, the lowest first, times the powers of a value. -/
def sumCoefficients (value : Expr → R) (y : R) : List Expr → R
  | [] => 0
  | c :: cs => value c + y * sumCoefficients value y cs

namespace Computes

variable {kept : Expr → Prop} {value : Expr → R} {y : R} (computes : Computes kept value x y)

include computes

/-- A term is its coefficient in the unknown times the power of the unknown. -/
theorem termDegree? (keptT : kept t) {c : Expr} {n : ℕ} (returned : termDegree? x t = .ok (some (c, n))) :
    kept c ∧ value t = value c * y ^ n := by
  unfold Expr.termDegree? at returned
  split at returned
  · cases returned
    exact ⟨keptT, by simp⟩
  split at returned
  next d name p _ =>
    cases found : naturalPower? x (symbol d name p) with
    | none =>
      rw [found] at returned
      cases returned
    | some m =>
      rw [found] at returned
      cases returned
      obtain ⟨keptD, number⟩ := computes.number d
      exact ⟨keptD, number ▸ computes.power found⟩
  next d factors _ =>
    obtain ⟨each, whole⟩ := computes.product keptT
    have normal := (computes.formed keptT).2.1
    split at returned
    · cases returned
    next m power =>
      obtain ⟨f, found, power⟩ := Option.bind_eq_some_iff.mp power
      obtain ⟨before, after, shape, others⟩ := split_of_find? normal.distinct found
      obtain ⟨rest, multiplied, returned⟩ := Outcome.bind_ok returned
      obtain ⟨keptD, number⟩ := computes.number d
      obtain ⟨keptRest, product⟩ := value_mulAll computes.mul keptD
        (fun g member => each g (List.mem_filter.mp member).1) multiplied
      split at returned
      · cases returned
      cases returned
      have one : f.coeff = 1 := (normal.proper f (shape ▸ by simp)).unit
      refine ⟨keptRest, ?_⟩
      rw [whole, product, number, others, shape, List.map_append, List.map_append, List.map_cons, List.prod_append,
        List.prod_append, List.prod_cons, computes.power power, one, map_one]
      ring
  · cases returned

theorem addAt {n : ℕ} {c : Expr} {cs ds : List Expr} (keptC : kept c) (each : ∀ d ∈ cs, kept d)
    (returned : addAt n c cs = .ok ds) :
    (∀ d ∈ ds, kept d) ∧ sumCoefficients value y ds = sumCoefficients value y cs + value c * y ^ n := by
  obtain ⟨keptZero, zero⟩ : kept Expr.zero ∧ value Expr.zero = _ := computes.number 0
  induction n generalizing cs ds with
  | zero =>
    cases cs with
    | nil =>
      cases returned
      exact ⟨List.forall_mem_singleton.mpr keptC, by simp [sumCoefficients]⟩
    | cons d cs =>
      obtain ⟨total, added, returned⟩ := Outcome.bind_ok returned
      cases returned
      obtain ⟨first, later⟩ := List.forall_mem_cons.mp each
      obtain ⟨keptTotal, sum⟩ := computes.add first keptC added
      refine ⟨List.forall_mem_cons.mpr ⟨keptTotal, later⟩, ?_⟩
      rw [sumCoefficients, sumCoefficients, sum]
      ring
  | succ n ih =>
    cases cs with
    | nil =>
      obtain ⟨rest, added, returned⟩ := Outcome.bind_ok returned
      cases returned
      obtain ⟨later, sum⟩ := ih (by simp) added
      refine ⟨List.forall_mem_cons.mpr ⟨keptZero, later⟩, ?_⟩
      simp only [sumCoefficients, sum, zero, map_zero]
      ring
    | cons d cs =>
      obtain ⟨rest, added, returned⟩ := Outcome.bind_ok returned
      cases returned
      obtain ⟨first, later⟩ := List.forall_mem_cons.mp each
      obtain ⟨keptRest, sum⟩ := ih later added
      refine ⟨List.forall_mem_cons.mpr ⟨first, keptRest⟩, ?_⟩
      rw [sumCoefficients, sumCoefficients, sum]
      ring

theorem collect {terms cs ds : List Expr} (keptTerms : ∀ t ∈ terms, kept t) (each : ∀ d ∈ cs, kept d)
    (returned : collect x cs terms = .ok (some ds)) :
    sumCoefficients value y ds = sumCoefficients value y cs + (terms.map value).sum := by
  induction terms generalizing cs with
  | nil =>
    cases returned
    simp
  | cons t terms ih =>
    obtain ⟨term?, read, returned⟩ := Outcome.bind_ok returned
    cases term? with
    | none => cases returned
    | some term =>
      obtain ⟨c, n⟩ := term
      obtain ⟨next, added, returned⟩ := Outcome.bind_ok returned
      obtain ⟨first, later⟩ := List.forall_mem_cons.mp keptTerms
      obtain ⟨keptC, split⟩ := computes.termDegree? first read
      obtain ⟨keptNext, total⟩ := computes.addAt keptC each added
      rw [ih later keptNext returned, total, List.map_cons, List.sum_cons, split, add_assoc]

theorem dropZeroTail (cs : List Expr) :
    sumCoefficients value y (dropZeroTail cs) = sumCoefficients value y cs := by
  induction cs with
  | nil => rfl
  | cons c cs ih =>
    rw [sumCoefficients, ← ih, Expr.dropZeroTail]
    split
    next none => simp [none, sumCoefficients]
    next d single =>
      rw [single]
      split
      next zeroed =>
        cases d with
        | number q =>
          obtain rfl : q = 0 := by simpa [isZero] using zeroed
          simp [sumCoefficients, (computes.number 0).2]
        | _ => cases zeroed
      next => rfl
    next => rw [sumCoefficients]

theorem numbers (qs : List ℚ) :
    sumCoefficients value y (qs.map Expr.number) = Polynomial.aeval y (Poly.ofCoefficients qs) := by
  induction qs with
  | nil => simp [sumCoefficients, Poly.ofCoefficients]
  | cons q qs ih =>
    rw [List.map_cons, sumCoefficients, ih, Poly.ofCoefficients, (computes.number q).2]
    simp

end Computes

end Computed

/-- The sum of the coefficients, the lowest first, times the powers of the unknown. -/
noncomputable def denoteCoefficients (x : String) : List Expr → MvPolynomial String ℚ
  | [] => 0
  | c :: cs => denote c + X x * denoteCoefficients x cs

/-- A power of the unknown. -/
theorem denote_of_naturalPower? {f : Expr} {n : ℕ} (found : naturalPower? x f = some n) :
    denote f = C f.coeff * X x ^ n := by
  cases f with
  | symbol c name p =>
    obtain ⟨⟨⟨rfl, -⟩, -⟩, rfl⟩ : ((name = x ∧ Rational.isInteger p = true) ∧ 0 < p) ∧ p.num.toNat = n := by
      simpa [naturalPower?] using found
    rfl
  | _ => cases found

/-- Polynomials are what they denote. -/
theorem computes_denote (x : String) : Computes IsPolynomial denote x (X x) where
  formed poly := poly.formed
  number c := ⟨⟨trivial, .number c⟩, by rw [denote, MvPolynomial.algebraMap_eq]⟩
  add polyA polyB returned := denote_add polyA polyB returned
  mul polyA polyB returned := denote_mul polyA polyB returned
  product {c factors} poly := by
    obtain ⟨formed, built⟩ := poly
    cases built with
    | product each =>
      refine ⟨fun f member => ⟨allWellFormed_iff.mp formed.2.2 f member, each f member⟩, ?_⟩
      rw [denote, denoteProduct_eq, MvPolynomial.algebraMap_eq]
  power found := by rw [denote_of_naturalPower? found, MvPolynomial.algebraMap_eq]

theorem denote_mulAll {first r : Expr} {factors : List Expr} (polyFirst : IsPolynomial first)
    (each : ∀ f ∈ factors, IsPolynomial f) (returned : mulAll first factors = .ok r) :
    IsPolynomial r ∧ denote r = denote first * (factors.map denote).prod :=
  value_mulAll denote_mul polyFirst each returned

/-- A monomial is its coefficient in the unknown times the power of the unknown. -/
theorem denote_of_termDegree? (monomial : IsMonomial t) {c : Expr} {n : ℕ}
    (returned : termDegree? x t = .ok (some (c, n))) :
    IsPolynomial c ∧ denote t = denote c * X x ^ n :=
  (computes_denote x).termDegree? monomial.isPolynomial returned

theorem sumCoefficients_denote (cs : List Expr) : sumCoefficients denote (X x) cs = denoteCoefficients x cs := by
  induction cs with
  | nil => rfl
  | cons c cs ih => rw [sumCoefficients, ih, denoteCoefficients]

theorem denoteCoefficients_dropZeroTail (cs : List Expr) :
    denoteCoefficients x (dropZeroTail cs) = denoteCoefficients x cs := by
  rw [← sumCoefficients_denote, ← sumCoefficients_denote, (computes_denote x).dropZeroTail]

theorem denoteCoefficients_collect {terms cs ds : List Expr} (monomials : ∀ t ∈ terms, IsMonomial t)
    (each : ∀ d ∈ cs, IsPolynomial d) (returned : collect x cs terms = .ok (some ds)) :
    denoteCoefficients x ds = denoteCoefficients x cs + (terms.map denote).sum := by
  rw [← sumCoefficients_denote, ← sumCoefficients_denote]
  exact (computes_denote x).collect (fun t member => (monomials t member).isPolynomial) each returned

theorem spreadTerms_perm (e : Expr) : e.spreadTerms.Perm e.summands := by
  cases e with
  | sum c terms p =>
    by_cases plain : p = 1
    · rw [spreadTerms, summands, if_pos plain, if_pos plain]
      exact (sortTerms_perm terms).map _
    · rw [spreadTerms, summands, if_neg plain, if_neg plain]
  | _ => exact .refl _

section

variable {context : Context}

/-- What holds of the coefficients that are collected from the expanded terms. -/
theorem returns_coeffs?_of {kept : Expr → Prop} (post : List Expr → Prop)
    (expands : Returns context (expand e) kept)
    (collects : ∀ expanded, kept expanded → ∀ cs,
      collect x [] expanded.spreadTerms = .ok (some cs) → post (dropZeroTail cs)) :
    Returns context (e.coeffs? x) fun cs? => ∀ cs, cs? = some cs → post cs := by
  unfold coeffs?
  refine Meets.bind _ expands fun expanded holds => ?_
  refine Meets.bind (fun cs? => ∀ cs, cs? = some cs → post (dropZeroTail cs)) (Returns.lift ?_)
    fun cs? collected => ?_
  · rintro _ returned cs rfl
    exact collects expanded holds cs returned
  cases cs? with
  | none => exact Meets.pure (by simp)
  | some cs =>
    refine Meets.pure fun ds same => ?_
    cases same
    exact collected cs rfl

/-- Coefficients that are numbers. -/
theorem eq_map_number {cs : List Expr} {qs : List ℚ} (found : cs.mapM value? = some qs) :
    cs = qs.map number := by
  induction cs generalizing qs with
  | nil =>
    cases found
    rfl
  | cons c cs ih =>
    rw [List.mapM_cons] at found
    obtain ⟨q, first, found⟩ := Option.bind_eq_some_iff.mp found
    obtain ⟨rest, others, found⟩ := Option.bind_eq_some_iff.mp found
    cases found
    cases c with
    | number c =>
      cases first
      rw [ih others, List.map_cons]
    | _ => cases first

/-- The polynomial that is read off has the coefficients, all of them numbers. -/
theorem returns_poly?_of {post : List Expr → Prop}
    (coefficients : Returns context (e.coeffs? x) fun cs? => ∀ cs, cs? = some cs → post cs) :
    Returns context (e.poly? x) fun p? => ∀ p, p? = some p →
      ∃ qs : List ℚ, post (qs.map number) ∧ p.toPolynomial = Poly.ofCoefficients qs := by
  unfold poly?
  refine Meets.bind _ coefficients fun cs? holds => ?_
  cases cs? with
  | none => exact Meets.pure (by simp)
  | some cs =>
    refine Meets.pure fun p found => ?_
    obtain ⟨qs, numbers, rfl⟩ := Option.map_eq_some_iff.mp found
    exact ⟨qs, eq_map_number numbers ▸ holds cs rfl, Poly.toPolynomial_ofList qs⟩

/-- The polynomial in one unknown that is read off has the value of the expanded form. -/
theorem Computes.returns_poly? {R : Type} [CommRing R] [Algebra ℚ R] {kept : Expr → Prop} {value : Expr → R}
    {y total : R} (computes : Computes kept value x y)
    (expands : Returns context (expand e) fun r =>
      (∀ t ∈ r.spreadTerms, kept t) ∧ (r.spreadTerms.map value).sum = total) :
    Returns context (e.poly? x) fun p? => ∀ p, p? = some p → Polynomial.aeval y p.toPolynomial = total := by
  refine (returns_poly?_of (returns_coeffs?_of (fun cs => sumCoefficients value y cs = total) expands
    fun expanded holds cs returned => ?_)).imp fun p? holds p found => ?_
  · obtain ⟨terms, sum⟩ := holds
    rw [computes.dropZeroTail, computes.collect terms (by simp) returned, sum, sumCoefficients, zero_add]
  · obtain ⟨qs, sum, same⟩ := holds p found
    rw [same, ← computes.numbers, sum]

/-- The polynomial in one unknown that is read off an expression is the one that the expression
denotes. -/
theorem returns_poly? (poly : IsPolynomial e) :
    Returns context (e.poly? x) fun p? => ∀ p, p? = some p →
      denote e = Polynomial.aeval (X x) p.toPolynomial := by
  have expands : Returns context (expand e) (Represents (denote e)) :=
    (meets_expand poly).accept fun _ _ => trivial
  refine ((computes_denote x).returns_poly? (expands.imp fun expanded represents => ?_)).imp
    fun p? holds p found => (holds p found).symm
  have perm := spreadTerms_perm expanded
  refine ⟨fun t member => (represents.expanded.isMonomial t (perm.mem_iff.mp member)).isPolynomial, ?_⟩
  rw [(perm.map denote).sum_eq, denote_summands, represents.value]

theorem termDegree?_of_absent (absent : t.contains x = false) :
    termDegree? x t = .ok (some (t, 0)) := by
  unfold termDegree?
  rw [absent]
  rfl

/-- Terms without the unknown have one coefficient at most. -/
theorem collect_length_le {collected cs : List Expr} {terms : List Expr}
    (absent : ∀ t ∈ terms, t.contains x = false) (short : collected.length ≤ 1)
    (returned : collect x collected terms = .ok (some cs)) : cs.length ≤ 1 := by
  induction terms generalizing collected with
  | nil =>
    cases returned
    exact short
  | cons t terms ih =>
    rw [collect, termDegree?_of_absent (absent t List.mem_cons_self)] at returned
    obtain ⟨next, added, returned⟩ := Outcome.bind_ok (x := addAt 0 t collected) returned
    refine ih (fun u later => absent u (List.mem_cons_of_mem _ later)) ?_ returned
    match collected, short with
    | [], _ =>
      cases added
      exact le_rfl
    | [c], _ =>
      obtain ⟨total, -, added⟩ := Outcome.bind_ok added
      cases added
      exact le_rfl

theorem dropZeroTail_length_le (cs : List Expr) : (dropZeroTail cs).length ≤ cs.length := by
  induction cs with
  | nil => exact le_rfl
  | cons c cs ih =>
    unfold dropZeroTail
    split
    · simp
    next d single =>
      rw [single] at ih
      split <;> simp_all
    next => simpa using ih

/-- As a polynomial in an unknown that does not occur, an expression is a constant. -/
theorem returns_poly?_of_absent (unknown : isVariableName x = true) (absent : e.contains x = false) :
    Returns context (e.poly? x) fun p? => ∀ p, p? = some p → ∃ c, p.toPolynomial = Polynomial.C c := by
  have expands : Returns context (expand e) (NamesHave (· ≠ x)) :=
    (names_keptByExpansion (admits_ne unknown)).expand (contains_eq_false_iff.mp absent)
  refine (returns_poly?_of (returns_coeffs?_of (fun cs => cs.length ≤ 1) expands
    fun expanded holds cs returned => ?_)).imp fun p? holds p found => ?_
  · refine (dropZeroTail_length_le cs).trans (@collect_length_le x [] cs _ (fun t member => ?_)
      (Nat.zero_le 1) returned)
    exact contains_eq_false_iff.mpr (holds.spreadTerms t member)
  · obtain ⟨qs, length, same⟩ := holds p found
    rw [List.length_map] at length
    rw [same]
    match qs, length with
    | [], _ => exact ⟨0, by simp [Poly.ofCoefficients]⟩
    | [q], _ => exact ⟨q, by simp [Poly.ofCoefficients]⟩

end

end ExactAlgebra.Expr
