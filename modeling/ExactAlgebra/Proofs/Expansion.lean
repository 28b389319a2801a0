import ExactAlgebra.Proofs.Denotation
import ExactAlgebra.Proofs.NormalForm
import ExactAlgebra.Session.Evaluation
import Mathlib

/-! Expansion decides polynomial identity. Expanding an expression computes its polynomial term by
term, and the text of the outcome depends on the polynomial alone. What stops the computation is the
deadline, or a power too long to be written out in the key of a term. -/
namespace ExactAlgebra.Expr
open Engine
open MvPolynomial (C X)

mutual
/-- The degree as it is read off the tree, as though nothing cancelled. -/
def formalDegree : Expr → ℕ
  | symbol _ _ p => p.num.toNat
  | sum _ terms p => p.num.toNat * largestDegree terms
  | product _ factors => summedDegree factors
  | number _ | call .. | exponential .. | foreign _ => 0

def largestDegree : List Expr → ℕ
  | [] => 0
  | t :: ts => max t.formalDegree (largestDegree ts)

def summedDegree : List Expr → ℕ
  | [] => 0
  | f :: fs => f.formalDegree + summedDegree fs
end

structure Represents (q : MvPolynomial String ℚ) (e : Expr) : Prop where
  expanded : Expanded e
  value : denote e = q

variable {a b e t : Expr} {q s : MvPolynomial String ℚ}

theorem le_largestDegree {terms : List Expr} (member : t ∈ terms) :
    t.formalDegree ≤ largestDegree terms := by
  induction terms with
  | nil => cases member
  | cons u rest ih =>
    rcases List.mem_cons.mp member with rfl | later
    · exact le_max_left _ _
    · exact (ih later).trans (le_max_right _ _)

theorem summedDegree_eq (factors : List Expr) :
    summedDegree factors = (factors.map formalDegree).sum := by
  induction factors with
  | nil => rfl
  | cons f rest ih => simp [summedDegree, ih]

theorem totalDegree_C_mul (c : ℚ) (q : MvPolynomial String ℚ) :
    (C c * q).totalDegree ≤ q.totalDegree := by
  have bound := MvPolynomial.totalDegree_mul (C c) q
  rwa [MvPolynomial.totalDegree_C, zero_add] at bound

theorem totalDegree_denoteSum_le {terms : List Expr} {limit : ℕ}
    (each : ∀ t ∈ terms, (denote t).totalDegree ≤ limit) : (denoteSum terms).totalDegree ≤ limit := by
  induction terms with
  | nil => simp [denoteSum]
  | cons t rest ih =>
    exact (MvPolynomial.totalDegree_add _ _).trans (max_le (each t List.mem_cons_self)
      (ih fun u later => each u (List.mem_cons_of_mem _ later)))

/-- The degree of the polynomial is no higher than the tree says. -/
theorem totalDegree_denote_le (e : Expr) : (denote e).totalDegree ≤ e.formalDegree := by
  induction e using Expr.induction with
  | symbol c name p =>
    refine (totalDegree_C_mul _ _).trans ((MvPolynomial.totalDegree_pow _ _).trans ?_)
    rw [MvPolynomial.totalDegree_X, mul_one, formalDegree]
  | sum c terms p ih =>
    refine (totalDegree_C_mul _ _).trans ((MvPolynomial.totalDegree_pow _ _).trans ?_)
    exact Nat.mul_le_mul_left _
      (totalDegree_denoteSum_le fun t member => (ih t member).trans (le_largestDegree member))
  | product c factors ih =>
    refine (totalDegree_C_mul _ _).trans ?_
    rw [formalDegree]
    induction factors with
    | nil => simp [denoteProduct]
    | cons f rest ihRest =>
      refine (MvPolynomial.totalDegree_mul _ _).trans (Nat.add_le_add (ih f List.mem_cons_self) ?_)
      exact ihRest fun g later => ih g (List.mem_cons_of_mem _ later)
  | number | call | exponential | foreign => simp [denote]

/-- The degree of a term is no higher than that of the polynomial. -/
theorem Represents.degree_le (represents : Represents q e) (member : t ∈ e.summands) :
    (t.exponents.sum fun _ n => n) ≤ q.totalDegree := by
  obtain ⟨expanded, rfl⟩ := represents
  cases zero : e.isZero with
  | true =>
    cases e with
    | number c =>
      obtain rfl := List.mem_singleton.mp member
      exact Nat.zero_le _
    | _ => cases zero
  | false =>
    have present : t.exponents ∈ (denote e).support := by
      rw [MvPolynomial.mem_support_iff, expanded.coeff_denote member]
      exact expanded.nonzero zero t member
    exact MvPolynomial.le_totalDegree present

theorem Represents.power_le (represents : Represents q e) (member : t ∈ e.summands) {f : Expr}
    (factor : f ∈ t.factors) : f.power.num.toNat ≤ q.totalDegree := by
  refine le_trans ?_ (represents.degree_le member)
  have monomial := represents.expanded.isMonomial t member
  have here : t.exponents (f.name?.getD "") = f.power.num.toNat :=
    exponents_of_mem monomial.distinct_names factor
  rw [← here]
  by_cases none : t.exponents (f.name?.getD "") = 0
  · exact none ▸ Nat.zero_le _
  · exact Finset.single_le_sum (fun _ _ => Nat.zero_le _) (Finsupp.mem_support_iff.mpr none)

theorem hasTermKey_product (c : Rat) (factors : List Expr) :
    (product c factors).hasTermKey = factors.all fun f => f.face.isLegible && f.face.hasKey := by
  simp [hasTermKey, termRank, isNumber, face, faces_eq, Face.isLegibleTimes, Layout.isWritable,
    isWritable_one, List.all_map, Function.comp_def]

/-- The key of a monomial can be written out when its exponents can. -/
theorem IsMonomial.hasTermKey (monomial : IsMonomial t)
    (small : ∀ f ∈ t.factors, f.power.num.toNat < Rational.digitBound) : t.hasTermKey = true := by
  have writable {f : Expr} (member : f ∈ t.factors) : Rational.isWritable f.power = true := by
    obtain ⟨name, p, rfl, _, whole, positive⟩ := monomial.factors member
    have bound := small _ member
    have one : 1 ≤ p.num := Rat.num_pos.mpr positive
    simp only [power] at bound
    have size : p.num.natAbs = p.num.toNat := by omega
    simp only [Rational.isWritable, power, whole, size, bound, decide_true, Bool.true_and,
      decide_eq_true_eq]
    omega
  obtain ⟨c, rfl⟩ | ⟨c, name, p, rfl⟩ | ⟨c, factors, rfl⟩ := monomial.cases
  · rfl
  · have short := @writable (symbol c name p).unit List.mem_cons_self
    simp only [Expr.unit, withCoeff, power] at short
    rw [hasTermKey_symbol, short]
  · rw [hasTermKey_product, List.all_eq_true]
    intro f member
    have inside : f ∈ (product c factors).factors := (sortFactors_perm factors).mem_iff.mpr member
    have short := writable inside
    obtain ⟨name, p, rfl, _⟩ := monomial.factors inside
    simpa [face, singleFace, power] using short

/-- So can those of the terms of a polynomial of a short degree. -/
theorem Represents.hasTermKey (represents : Represents q e) (short : q.totalDegree < Rational.digitBound)
    (member : t ∈ e.summands) : t.hasTermKey = true :=
  (represents.expanded.isMonomial t member).hasTermKey fun _ factor =>
    (represents.power_le member factor).trans_lt short

theorem IsMonomial.expanded (monomial : IsMonomial e) : Expanded e := by
  have single : e.summands = [e] := by
    obtain ⟨c, rfl⟩ | ⟨c, name, p, rfl⟩ | ⟨c, factors, rfl⟩ := monomial.cases <;> rfl
  refine ⟨monomial.formed, fun t member => ?_, fun zero t member => ?_⟩
  · rw [single] at member
    obtain rfl := List.mem_singleton.mp member
    exact monomial.built
  · rw [single] at member
    obtain rfl := List.mem_singleton.mp member
    have formed := monomial.formed
    obtain ⟨c, rfl⟩ | ⟨c, name, p, rfl⟩ | ⟨c, factors, rfl⟩ := monomial.cases
    · simpa [isZero, coeff] using zero
    · exact formed.1
    · exact formed.1

theorem expanded_number (c : Rat) : Expanded (number c) := IsMonomial.expanded ⟨trivial, .number c⟩

theorem Expanded.add {r : Expr} (expandedA : Expanded a) (expandedB : Expanded b)
    (returned : add a b = .ok r) : Expanded r := by
  have formed := add_wellFormed expandedA.formed expandedB.formed returned
  rcases add_cases returned with ⟨_, rfl⟩ | ⟨_, rfl⟩ | ⟨x, y, rfl, rfl, rfl⟩ | ⟨keyed, rfl⟩
  · exact expandedB
  · exact expandedA
  · exact expanded_number _
  · have collected := collected_summands expandedA.formed expandedB.formed keyed
    have monomials : ∀ t ∈ ((a.summands ++ b.summands).map rankTerm).foldl insertTerm [],
        BuiltBy .monomial t.2 := by
      refine forall_foldl_insertTerm BuiltBy.withCoeff (by simp) fun t member => ?_
      obtain ⟨u, inside, rfl⟩ := List.mem_map.mp member
      rcases List.mem_append.mp inside with left | right
      · exact expandedA.built u left
      · exact expandedB.built u right
    cases zero : (mergeTerms ((a.summands ++ b.summands).map rankTerm)).isZero with
    | true =>
      rw [eq_zero_of_isZero zero]
      exact expanded_number 0
    | false =>
      have summands := summands_ofTerms collected zero
      refine ⟨formed, fun t member => ?_, fun _ t member => ?_⟩
      all_goals
        obtain ⟨u, inside, rfl⟩ := List.mem_map.mp (summands ▸ member)
        obtain ⟨old, kept⟩ := mem_remaining.mp inside
      · exact monomials u old
      · exact kept

theorem Expanded.isPolynomial (expanded : Expanded e) : IsPolynomial e := by
  refine ⟨expanded.formed, ?_⟩
  rcases summands_cases e with single | ⟨c, terms, rfl⟩
  · have member : e ∈ e.summands := by rw [single]; exact List.mem_singleton_self e
    exact (expanded.built e member).polynomial
  · refine .sum (fun t member => ?_) (fun _ _ => trivial) Scheme.polynomial.one
    have inside : t.withCoeff (t.coeff * c) ∈ (sum c terms 1).summands := by
      rw [summands_plain]
      exact List.mem_map_of_mem member
    have built := (expanded.built _ inside).polynomial.withCoeff t.coeff
    rwa [withCoeff_withCoeff, withCoeff_coeff] at built

theorem represents_number (c : Rat) : Represents (C c) (number c) := ⟨expanded_number c, rfl⟩

theorem represents_zero : Represents 0 zero := ⟨expanded_number 0, MvPolynomial.C_0⟩

/-- Polynomials are added, unless an exponent is too long to be written out. -/
theorem Represents.add (representsA : Represents q a) (representsB : Represents s b) {limit : ℕ}
    (boundA : q.totalDegree ≤ limit) (boundB : s.totalDegree ≤ limit) :
    (∃ r, add a b = .ok r ∧ Represents (q + s) r) ∨
      (add a b = .error .unsupported ∧ Rational.digitBound ≤ limit) := by
  rcases add_outcome a b with ⟨r, returned⟩ | ⟨failed, t, member, keyless⟩
  · refine .inl ⟨r, returned, representsA.expanded.add representsB.expanded returned, ?_⟩
    rw [(denote_add representsA.expanded.isPolynomial representsB.expanded.isPolynomial returned).2,
      representsA.value, representsB.value]
  · refine .inr ⟨failed, ?_⟩
    by_contra short
    have keyed : t.hasTermKey = true := by
      rcases List.mem_append.mp member with left | right
      · exact representsA.hasTermKey (boundA.trans_lt (not_le.mp short)) left
      · exact representsB.hasTermKey (boundB.trans_lt (not_le.mp short)) right
    rw [keyed] at keyless
    cases keyless

/-- Monomials are always multiplied. -/
theorem IsMonomial.mul (monomialA : IsMonomial a) (monomialB : IsMonomial b) :
    ∃ r, mul a b = .ok r ∧ Represents (denote a * denote b) r := by
  rcases mul_built monomialA.formed monomialB.formed monomialA.built monomialB.built with
    ⟨_, f, member, keyless⟩ | ⟨r, returned, multiplies⟩
  · have keyed : f.hasBaseKey = true := by
      rcases List.mem_append.mp member with left | right
      · obtain ⟨name, p, rfl, _⟩ := monomialA.factors left
        rfl
      · obtain ⟨name, p, rfl, _⟩ := monomialB.factors right
        rfl
    rw [keyed] at keyless
    cases keyless
  · have monomial : IsMonomial r :=
      ⟨mul_wellFormed monomialA.formed monomialB.formed returned, multiplies.built⟩
    refine ⟨r, returned, monomial.expanded, MvPolynomial.funext fun ρ => ?_⟩
    rw [map_mul, eval_denote monomial.built.polynomial, eval_denote monomialA.built.polynomial,
      eval_denote monomialB.built.polynomial]
    exact multiplies.value ρ monomialA.built.polynomial.defined monomialB.built.polynomial.defined

theorem summands_scale (formed : e.WellFormed) {c : Rat} (nonzero : c ≠ 0) :
    (e.scale c).summands = e.summands.map fun t => t.withCoeff (t.coeff * c) := by
  rw [Expr.scale, if_neg nonzero]
  cases e with
  | sum d terms p =>
    by_cases plain : p = 1
    · subst plain
      rw [withCoeff, summands_plain, summands_plain, List.map_map]
      refine List.map_congr_left fun t member => ?_
      have formedT := allWellFormed_iff.mp formed.2.2.2 t member
      rw [Function.comp_apply, formedT.coeff_withCoeff, withCoeff_withCoeff, coeff, mul_assoc]
    · simp [withCoeff, summands, plain]
  | _ => rfl

theorem Represents.scale (represents : Represents q e) (c : Rat) :
    Represents (C c * q) (e.scale c) := by
  obtain ⟨expanded, rfl⟩ := represents
  by_cases zeroed : c = 0
  · rw [zeroed, MvPolynomial.C_0, zero_mul, Expr.scale, if_pos rfl]
    exact represents_zero
  have terms := summands_scale expanded.formed zeroed
  refine ⟨⟨expanded.formed.scale c, fun t member => ?_, fun proper t member => ?_⟩, denote_scale e c⟩
  · rw [terms] at member
    obtain ⟨u, inside, rfl⟩ := List.mem_map.mp member
    exact (expanded.built u inside).withCoeff _
  · rw [terms] at member
    obtain ⟨u, inside, rfl⟩ := List.mem_map.mp member
    have some : e.isZero = false := by
      cases zero : e.isZero with
      | false => rfl
      | true =>
        cases e with
        | number d =>
          have none : d = 0 := by simpa [isZero] using zero
          simp [Expr.scale, zeroed, withCoeff, coeff, none, isZero] at proper
        | _ => cases zero
    rw [(expanded.isMonomial u inside).formed.coeff_withCoeff]
    exact mul_ne_zero (expanded.nonzero some u inside) zeroed

/-- The terms over which a product is distributed, and the number left out of them. -/
theorem Represents.terms (represents : Represents q e) :
    (∀ t ∈ e.terms, IsMonomial t ∧ (denote t).totalDegree ≤ q.totalDegree) ∧
      q = C (if e.isPlainSum then e.coeff else 1) * (e.terms.map denote).sum := by
  have bound (t : Expr) (monomial : IsMonomial t) (k : Rat)
      (member : t.withCoeff k ∈ e.summands) : (denote t).totalDegree ≤ q.totalDegree := by
    have degree := represents.degree_le member
    rw [exponents_withCoeff] at degree
    rw [monomial.denote_eq]
    exact (MvPolynomial.totalDegree_monomial_le _ _).trans degree
  rcases summands_cases e with single | ⟨c, terms, rfl⟩
  · have member : e.withCoeff e.coeff ∈ e.summands := by simp [single]
    have monomial := represents.expanded.isMonomial _ member
    rw [withCoeff_coeff] at monomial
    have plain : e.terms = [e] ∧ e.isPlainSum = false := by
      obtain ⟨c, rfl⟩ | ⟨c, name, p, rfl⟩ | ⟨c, factors, rfl⟩ := monomial.cases <;> exact ⟨rfl, rfl⟩
    rw [plain.1, plain.2, ← represents.value]
    refine ⟨fun t inside => ?_, by simp⟩
    obtain rfl := List.mem_singleton.mp inside
    exact ⟨monomial, represents.value ▸ bound t monomial _ member⟩
  · rw [terms_plain]
    refine ⟨fun t inside => ?_, ?_⟩
    · have below := (sortTerms_perm terms).mem_iff.mp inside
      have member : t.withCoeff (t.coeff * c) ∈ (sum c terms 1).summands := by
        rw [summands_plain]
        exact List.mem_map_of_mem below
      have built := (represents.expanded.built _ member).withCoeff t.coeff
      rw [withCoeff_withCoeff, withCoeff_coeff] at built
      have monomial : IsMonomial t :=
        ⟨allWellFormed_iff.mp represents.expanded.formed.2.2.2 t below, built⟩
      exact ⟨monomial, bound t monomial _ member⟩
    · rw [← represents.value, denote, Rat.num_one, Int.toNat_one, pow_one, denoteSum_eq,
        ((sortTerms_perm terms).map denote).sum_eq]
      rfl

/-- An expanded expression of the polynomial, whose degree is within a limit. -/
structure RepresentsWithin (limit : ℕ) (q : MvPolynomial String ℚ) (e : Expr) : Prop
    extends Represents q e where
  degree : q.totalDegree ≤ limit

/-- The deadline is over, or there are exponents too long to be written out within the limit. -/
def Refused (context : Context) (limit : ℕ) (fault : Fault) : Prop :=
  (∃ now, context.scope.guard.check now = .error fault) ∨
    (fault = .unsupported ∧ Rational.digitBound ≤ limit)

variable {context : Context} {limit : ℕ}

theorem meets_poll : Meets context (Refused context limit) poll fun _ => True := by
  unfold poll
  refine Meets.bind (· = context) (Meets.read rfl) ?_
  rintro _ rfl
  dsimp only
  split
  · refine Meets.bind _ Meets.look fun now _ => ?_
    exact Meets.lift (fun _ _ => trivial) fun fault failed => .inl ⟨now, failed⟩
  · exact Meets.pure trivial

theorem meets_add (withinA : RepresentsWithin limit q a) (withinB : RepresentsWithin limit s b) :
    Meets context (Refused context limit) (liftM (add a b)) (RepresentsWithin limit (q + s)) := by
  have outcome := withinA.toRepresents.add withinB.toRepresents withinA.degree withinB.degree
  refine Meets.lift (fun r returned => ?_) fun fault failed => ?_
  · rcases outcome with ⟨r', same, represents⟩ | ⟨failed, _⟩
    · obtain rfl := Except.ok.inj (returned.symm.trans same)
      exact ⟨represents, (MvPolynomial.totalDegree_add q s).trans
        (max_le withinA.degree withinB.degree)⟩
    · cases returned.symm.trans failed
  · rcases outcome with ⟨r, returned, _⟩ | ⟨refused, long⟩
    · cases failed.symm.trans returned
    · exact .inr ⟨Except.error.inj (failed.symm.trans refused), long⟩

theorem meets_mul (monomialA : IsMonomial a) (monomialB : IsMonomial b)
    (bound : (denote a).totalDegree + (denote b).totalDegree ≤ limit) :
    Meets context (Refused context limit) (liftM (mul a b))
      (RepresentsWithin limit (denote a * denote b)) := by
  obtain ⟨r, returned, represents⟩ := monomialA.mul monomialB
  refine Meets.lift (fun r' same => ?_) fun fault failed => ?_
  · obtain rfl := Except.ok.inj (same.symm.trans returned)
    exact ⟨represents, (MvPolynomial.totalDegree_mul _ _).trans bound⟩
  · cases failed.symm.trans returned

/-- Distributing multiplies polynomials. -/
theorem meets_distribute (representsA : Represents q a) (representsB : Represents s b)
    (bound : q.totalDegree + s.totalDegree ≤ limit) :
    Meets context (Refused context limit) (distribute a b) (RepresentsWithin limit (q * s)) := by
  obtain ⟨termsA, valueA⟩ := representsA.terms
  obtain ⟨termsB, valueB⟩ := representsB.terms
  unfold distribute
  refine Meets.bind _ (meets_termProducts (RepresentsWithin limit) denote ⟨represents_zero, by simp⟩
    fun x left y right w total within => ?_) fun total within => Meets.pure ⟨?_, ?_⟩
  · obtain ⟨monomialX, degreeX⟩ := termsA x left
    obtain ⟨monomialY, degreeY⟩ := termsB y right
    refine Meets.bind _ meets_poll fun _ _ => ?_
    refine Meets.bind _ (meets_mul monomialX monomialY ((Nat.add_le_add degreeX degreeY).trans bound))
      fun r product => meets_add within product
  · have scaled := within.toRepresents.scale
      ((if a.isPlainSum then a.coeff else 1) * (if b.isPlainSum then b.coeff else 1))
    rw [MvPolynomial.C_mul, mul_mul_mul_comm, ← valueA, ← valueB] at scaled
    exact scaled
  · exact (MvPolynomial.totalDegree_mul q s).trans bound

theorem Refused.mono {fewer : ℕ} (le : fewer ≤ limit) {fault : Fault}
    (refused : Refused context fewer fault) : Refused context limit fault :=
  refused.imp_right fun ⟨same, long⟩ => ⟨same, long.trans le⟩

/-- Distributing again and again multiplies by a power. -/
theorem meets_distributeTimes (representsA : Represents q a) (representsB : Represents s b) (n : ℕ)
    (bound : q.totalDegree + n * s.totalDegree ≤ limit) :
    Meets context (Refused context limit) (distributeTimes a b n) (Represents (q * s ^ n)) := by
  induction n generalizing a q with
  | zero => exact Meets.pure (by simpa using representsA)
  | succ n ih =>
    have first : q.totalDegree + s.totalDegree ≤ limit := by
      refine le_trans ?_ bound
      rw [Nat.succ_mul]
      omega
    refine Meets.bind _ (meets_distribute representsA representsB first) fun r within => ?_
    have later : (q * s).totalDegree + n * s.totalDegree ≤ limit := by
      have product := MvPolynomial.totalDegree_mul q s
      rw [Nat.succ_mul] at bound
      omega
    have power := ih within.toRepresents later
    rwa [mul_assoc, ← pow_succ'] at power

theorem meets_expandPower (represents : Represents q e) {p : Rat}
    (power : Scheme.polynomial.powers p) (bound : p.num.toNat * q.totalDegree ≤ limit) :
    Meets context (Refused context limit) (expandPower e p) (Represents (q ^ p.num.toNat)) := by
  have positive : 0 < p.num := Rat.num_pos.mpr power.2
  obtain ⟨n, count⟩ : ∃ n, p.num.toNat = n + 1 := ⟨p.num.toNat - 1, by omega⟩
  unfold expandPower
  split
  next one =>
    rw [one, Rat.num_one, Int.toNat_one, pow_one]
    exact Meets.pure represents
  · have whole : (Rational.isInteger p && decide (0 < p)) = true := by
      simp [Rational.isInteger, power.1, power.2]
    rw [if_pos whole, count, Nat.add_sub_cancel, pow_succ']
    refine meets_distributeTimes represents represents n ?_
    rw [count, Nat.succ_mul] at bound
    omega

/-- The factors of a product, expanded and distributed one after the other. -/
theorem meets_foldlM_distribute {factors : List Expr}
    (each : ∀ f ∈ factors, f.formalDegree ≤ limit →
      Meets context (Refused context limit) (expandTree f) (Represents (denote f)))
    (represents : Represents q e)
    (bound : q.totalDegree + (factors.map formalDegree).sum ≤ limit) :
    Meets context (Refused context limit)
      (factors.foldlM (fun result f => do distribute result (← expandTree f)) e)
      (Represents (q * (factors.map denote).prod)) := by
  induction factors generalizing e q with
  | nil => exact Meets.pure (by simpa using represents)
  | cons f rest ih =>
    simp only [List.map_cons, List.sum_cons] at bound
    have degree := totalDegree_denote_le f
    rw [List.foldlM_cons, List.map_cons, List.prod_cons, ← mul_assoc]
    refine Meets.bind (Represents (q * denote f)) ?_ fun r represents => ?_
    · refine Meets.bind _ (each f List.mem_cons_self (by omega)) fun g representsF => ?_
      exact (meets_distribute represents representsF (by omega)).imp fun _ within =>
        within.toRepresents
    · refine ih (fun g later => each g (List.mem_cons_of_mem _ later)) represents ?_
      have product := MvPolynomial.totalDegree_mul q (denote f)
      omega

/-- Expanding an expression computes its polynomial. -/
theorem meets_expandTree (poly : IsPolynomial e) (bound : e.formalDegree ≤ limit) :
    Meets context (Refused context limit) (expandTree e) (Represents (denote e)) := by
  induction e using Expr.induction generalizing limit with
  | number c => exact Meets.pure (represents_number c)
  | symbol c name p =>
    obtain ⟨formed, built⟩ := poly
    cases built with
    | symbol named power =>
      exact Meets.pure ⟨IsMonomial.expanded ⟨formed, .symbol named power⟩, rfl⟩
  | call | exponential | foreign => cases poly.built
  | sum c terms p ih =>
    obtain ⟨formed, built⟩ := poly
    cases built with
    | sum each _ power =>
      have formedTerms := allWellFormed_iff.mp formed.2.2.2
      have positive : 1 ≤ p.num.toNat := by
        have := Rat.num_pos.mpr power.2
        omega
      rw [formalDegree] at bound
      have largest : largestDegree terms ≤ limit :=
        (Nat.le_mul_of_pos_left _ positive).trans bound
      have inner : Meets context (Refused context limit) (expandSum zero terms)
          (RepresentsWithin (largestDegree terms) (0 + (terms.map denote).sum)) := by
        rw [expandSum_eq]
        refine Meets.foldlM_sum _ _ ⟨represents_zero, by simp⟩ fun s total within t member => ?_
        have degree := le_largestDegree member
        refine Meets.bind _ (ih t member ⟨formedTerms t member, each t member⟩
          (degree.trans largest)) fun u represents => ?_
        refine (meets_add within ⟨represents, ?_⟩).accept fun _ => Refused.mono largest
        exact (totalDegree_denote_le t).trans degree
      rw [zero_add, ← denoteSum_eq] at inner
      rw [expandTree]
      refine Meets.bind _ inner fun total within => ?_
      refine Meets.bind _ (meets_expandPower within.toRepresents power ?_) fun raised represents =>
        Meets.pure (represents.scale c)
      exact (Nat.mul_le_mul_left _ within.degree).trans bound
  | product c factors ih =>
    obtain ⟨formed, built⟩ := poly
    cases built with
    | product each =>
      have perm := sortFactors_perm factors
      have product : denote (product c factors) = C c * ((sortFactors factors).map denote).prod := by
        rw [denote, denoteProduct_eq, (perm.map denote).prod_eq]
      rw [expandTree_product, product]
      refine meets_foldlM_distribute (fun f member degree => ?_) (represents_number c) ?_
      · have inside := perm.mem_iff.mp member
        exact ih f inside ⟨allWellFormed_iff.mp formed.2.2 f inside, each f inside⟩ degree
      · rw [MvPolynomial.totalDegree_C, zero_add, (perm.map formalDegree).sum_eq]
        rwa [formalDegree, summedDegree_eq] at bound

/-- What stops an expansion: the deadline cannot be set or is over, or there are exponents too long to
be written out within the limit. -/
def Stopped (context : Context) (limit : ℕ) (fault : Fault) : Prop :=
  (∃ now, context.scope.guard.enter (context.scope.settings.get .timeoutMs) now = .error fault) ∨
    (∃ now later guard,
      context.scope.guard.enter (context.scope.settings.get .timeoutMs) now = .ok guard ∧
        guard.check later = .error fault) ∨
    (fault = .unsupported ∧ Rational.digitBound ≤ limit)

def Unset (context : Context) (fault : Fault) : Prop :=
  ∃ now, context.scope.guard.enter (context.scope.settings.get .timeoutMs) now = .error fault

theorem meets_openBlock : Meets context (Unset context) openBlock fun guard =>
    ∃ now, context.scope.guard.enter (context.scope.settings.get .timeoutMs) now = .ok guard := by
  unfold openBlock
  refine Meets.bind (context = ·) (Meets.read rfl) ?_
  rintro _ rfl
  have enter (now : Rat) : Meets context (Unset context)
      (liftM (context.scope.guard.enter (context.scope.settings.get .timeoutMs) now)) fun guard =>
        ∃ now, context.scope.guard.enter (context.scope.settings.get .timeoutMs) now = .ok guard :=
    Meets.lift (fun _ entered => ⟨now, entered⟩) fun _ failed => ⟨now, failed⟩
  dsimp only
  split
  · exact Meets.bind _ Meets.look fun now _ => enter now
  · exact Meets.bind (fun _ => True) (Meets.pure trivial) fun now _ => enter now

theorem meets_expand (poly : IsPolynomial e) :
    Meets context (Stopped context e.formalDegree) (expand e) (Represents (denote e)) := by
  unfold expand guarded
  refine Meets.bind _ (meets_openBlock.accept fun _ => .inl) fun guard ⟨now, entered⟩ => Meets.inScope ?_
  refine (meets_expandTree poly le_rfl).accept fun fault refused => ?_
  rcases refused with ⟨later, expired⟩ | long
  · exact .inr (.inl ⟨now, later, guard, entered, expired⟩)
  · exact .inr (.inr long)

/-- Expressions of the same text stand for the same polynomial. -/
theorem IsPolynomial.denote_eq_of_text_eq (polyA : IsPolynomial a) (polyB : IsPolynomial b)
    (same : a.text = b.text) : denote a = denote b := by
  refine (denote_eq_iff polyA.built polyB.built).mpr fun ρ => ?_
  rw [eval_eq_coeff_mul a, eval_eq_coeff_mul b]
  exact (polyA.built.depicted polyA.formed).1.eval_eq_of_text_eq
    (polyB.built.depicted polyB.formed).1 same ρ

/-- Expansion decides polynomial identity: the texts of two expansions are the same exactly when the
expressions stand for the same polynomial, and an expansion is zero exactly when its polynomial is. An
expansion fails only by the deadline or when the degree has too many digits to be written out. -/
theorem expand_decides_identity (polyA : IsPolynomial a) (polyB : IsPolynomial b)
    (context : Context) :
    Meets context (Stopped context a.formalDegree) (expand a) fun r =>
      (r.isZero = true ↔ denote a = 0) ∧
        Meets context (Stopped context b.formalDegree) (expand b) fun s =>
          (denote a = denote b → r.render = s.render) ∧
            ∀ text, r.render = .ok text → s.render = .ok text → denote a = denote b := by
  refine (meets_expand polyA).imp fun r representsA => ⟨?_, ?_⟩
  · rw [representsA.expanded.isZero_iff, representsA.value]
  refine (meets_expand polyB).imp fun s representsB => ⟨fun same => ?_, fun text shownR shownS => ?_⟩
  · refine (representsA.expanded.similar representsB.expanded ?_).render
    rw [representsA.value, representsB.value, same]
  · rw [← representsA.value, ← representsB.value]
    refine representsA.expanded.isPolynomial.denote_eq_of_text_eq representsB.expanded.isPolynomial ?_
    rw [text_of_render shownR, text_of_render shownS]

theorem isPolynomial_succ_x : IsPolynomial (sum 1 [bare "x", number 1] 1) := by
  refine ⟨wellFormed_succ_x, .sum (fun t member => ?_) (fun _ _ => trivial) Scheme.polynomial.one⟩
  rcases List.mem_cons.mp member with rfl | later
  · exact .symbol (by decide) Scheme.polynomial.one
  · obtain rfl := List.mem_singleton.mp later
    exact .number 1

theorem isPolynomial_square : IsPolynomial (sum 1 [bare "x", number 1] 2) := by
  obtain ⟨⟨_, _, normal, terms⟩, built⟩ := isPolynomial_succ_x
  cases built with
  | sum each shares => exact ⟨⟨one_ne_zero, two_ne_zero, normal, terms⟩, .sum each shares ⟨rfl, two_pos⟩⟩

theorem isPolynomial_square_expanded :
    IsPolynomial (sum 1 [symbol 1 "x" 2, symbol 2 "x" 1, number 1] 1) := by
  refine ⟨⟨one_ne_zero, one_ne_zero, ⟨by decide, ?_, ?_, ?_, ?_, ?_, ?_⟩, ?_⟩,
    .sum (fun t member => ?_) (fun _ _ => trivial) Scheme.polynomial.one⟩
  case refine_6 =>
    intro t first
    have member := (sortTerms_perm _).mem_iff.mp (List.mem_of_mem_head? first)
    have positive : ∀ t ∈ [symbol 1 "x" 2, symbol 2 "x" 1, number 1], 0 < t.coeff := by
      decide +kernel
    exact positive t member
  case refine_7 =>
    exact ⟨⟨one_ne_zero, two_ne_zero, .inl (by decide), by decide, by decide⟩,
      ⟨two_ne_zero, one_ne_zero, .inl (by decide), by decide, by decide⟩, trivial, trivial⟩
  case refine_8 =>
    simp only [List.mem_cons, List.not_mem_nil, or_false] at member
    rcases member with rfl | rfl | rfl
    · exact .symbol (by decide) ⟨rfl, two_pos⟩
    · exact .symbol (by decide) Scheme.polynomial.one
    · exact .number 1
  all_goals decide +kernel

/-- The square of `x + 1` and the sum `x^2 + 2*x + 1` in a new session. -/
theorem expand_square_of_succ_x :
    let e := sum 1 [bare "x", number 1] 2
    let f := sum 1 [symbol 1 "x" 2, symbol 2 "x" 1, number 1] 1
    IsPolynomial e ∧ IsPolynomial f ∧ ∃ r s, runIn Session.initial.scope e.expand = .ok r ∧
      runIn Session.initial.scope f.expand = .ok s ∧ s.render = .ok "x^2+2*x+1" ∧ r.render = s.render := by
  intro e f
  have polyE : IsPolynomial e := isPolynomial_square
  have polyF : IsPolynomial f := isPolynomial_square_expanded
  have value : denote e = denote f := by
    simp only [e, f, denote, denoteSum, bare, Rat.num_one, Int.toNat_one, pow_one, MvPolynomial.C_1]
    have two : ((2 : Rat).num.toNat) = 2 := rfl
    rw [two, show (2 : ℚ) = 1 + 1 by norm_num, MvPolynomial.C_add, MvPolynomial.C_1]
    ring
  have expanded : (runIn Session.initial.scope e.expand).toOption.isSome = true := by decide +kernel
  have written : (runIn Session.initial.scope f.expand >>= render).toOption = some "x^2+2*x+1" := by decide +kernel
  obtain ⟨r, returned⟩ := Option.isSome_iff_exists.mp expanded
  obtain ⟨s, returnedF, text⟩ := Outcome.bind_ok (Outcome.ok_of_toOption written)
  replace returned := Outcome.ok_of_toOption returned
  -- With the session left open, the elaborator does not start to run the computations.
  generalize Session.initial.scope = scope at returned returnedF ⊢
  have decides := ((expand_decides_identity polyE polyF _).of_runIn returned).2.of_runIn returnedF
  exact ⟨polyE, polyF, r, s, returned, returnedF, text, decides.1 value⟩

/-- Among several terms of an expanded expression, each has exponents that can be written out. -/
theorem Represents.isWritable (represents : Represents q e) {m other : String →₀ ℕ}
    (present : m ∈ q.support) (second : other ∈ q.support) (different : m ≠ other) {name : String}
    (occurs : m name ≠ 0) : Rational.isWritable (m name : ℚ) = true := by
  obtain ⟨expanded, rfl⟩ := represents
  have found {k : String →₀ ℕ} (present : k ∈ (denote e).support) :
      ∃ t ∈ e.summands, t.exponents = k := by
    rw [MvPolynomial.mem_support_iff, ← denote_summands] at present
    by_contra absent
    refine present (coeff_sum_of_notMem expanded.isMonomial fun member => absent ?_)
    exact List.mem_map.mp member
  obtain ⟨t, member, rfl⟩ := found present
  obtain ⟨u, memberU, rfl⟩ := found second
  have monomial := expanded.isMonomial t member
  have keyed : t.hasTermKey = true := by
    rcases summands_cases e with single | ⟨c, terms, rfl⟩
    · rw [single] at member memberU
      obtain rfl := List.mem_singleton.mp member
      obtain rfl := List.mem_singleton.mp memberU
      exact absurd rfl different
    · rw [summands_plain] at member
      obtain ⟨v, inside, rfl⟩ := List.mem_map.mp member
      rw [hasTermKey_withCoeff]
      exact expanded.formed.2.2.1.keyed v inside
  have listed : name ∈ t.factors.map fun f => f.name?.getD "" := by
    by_contra absent
    exact occurs (exponents_of_notMem absent)
  obtain ⟨f, factor, rfl⟩ := List.mem_map.mp listed
  have power : (t.exponents (f.name?.getD "") : ℚ) = f.power := by
    rw [exponents, exponents_of_mem monomial.distinct_names factor]
    obtain ⟨name, p, rfl, _, whole, positive⟩ := monomial.factors factor
    have size : (p.num.toNat : ℤ) = p.num := Int.toNat_of_nonneg (Rat.num_pos.mpr positive).le
    rw [Expr.power, ← Int.cast_natCast, size, Rat.coe_int_num_of_den_eq_one whole]
  rw [power]
  obtain ⟨name, p, rfl, _⟩ := monomial.factors factor
  obtain ⟨c, rfl⟩ | ⟨c, other, s, rfl⟩ | ⟨c, factors, rfl⟩ := monomial.cases
  · cases factor
  · obtain rfl := (symbol.inj (List.mem_singleton.mp factor)).2.2
    exact (hasTermKey_symbol c other p).symm.trans keyed
  · rw [hasTermKey_product, List.all_eq_true] at keyed
    have legible := keyed _ ((sortFactors_perm factors).mem_iff.mp factor)
    simpa [face, singleFace, Expr.power] using legible

theorem sortTerms_pair {a b : Expr} (ordered : TermRank.le (a.termRank a.face) (b.termRank b.face) = true) :
    sortTerms [a, b] = [a, b] := by
  simp [sortTerms, sortByRank, insertByRank, ordered]

/-- A power of the sum of a power that can be written out and one, or of their difference. -/
theorem isPolynomial_binomial {n : ℕ} (positive : n ≠ 0) (short : Rational.isWritable n = true) {d p : ℚ}
    (unit : d = 1 ∨ d = -1) (power : Scheme.polynomial.powers p) :
    IsPolynomial (sum 1 [symbol 1 "x" n, number d] p) := by
  have nonzero : (n : ℚ) ≠ 0 := Nat.cast_ne_zero.mpr positive
  have formed : (symbol 1 "x" (n : ℚ)).WellFormed :=
    ⟨one_ne_zero, nonzero, .inl (by decide), fun digits => absurd digits (by decide),
      fun same => absurd same (by decide)⟩
  have built : BuiltBy .polynomial (symbol 1 "x" (n : ℚ)) :=
    .symbol (by decide) ⟨Rat.den_natCast n, Nat.cast_pos.mpr (Nat.pos_of_ne_zero positive)⟩
  have key := termKey_ne_hash built formed rfl
  have order : sortTerms [symbol 1 "x" (n : ℚ), number d] = [symbol 1 "x" (n : ℚ), number d] :=
    sortTerms_pair (by simp [TermRank.le, termRank, isNumber])
  refine ⟨⟨one_ne_zero, power.2.ne', ⟨le_rfl, ?_, ?_, ?_, ?_, ?_, ?_⟩, formed, trivial, trivial⟩,
    .sum ?_ (fun _ _ => trivial) power⟩
  · simp [hasTermKey_symbol, short]
    rfl
  · exact List.nodup_cons.mpr ⟨List.mem_singleton.not.mpr key, List.nodup_singleton _⟩
  · simp [isPlainSum]
  · rcases unit with rfl | rfl <;> simp [coeff]
  · rcases unit with rfl | rfl
    · exact (by decide +kernel : commonDivisor [1, 1] = 1)
    · exact (by decide +kernel : commonDivisor [1, -1] = 1)
  · rw [order]
    simp [coeff]
  · simp [built, BuiltBy.number]

theorem isPolynomial_square_of_succ {n : ℕ} (positive : n ≠ 0) (short : Rational.isWritable n = true) :
    IsPolynomial (sum 1 [symbol 1 "x" n, number 1] 2) :=
  isPolynomial_binomial positive short (.inl rfl) ⟨rfl, two_pos⟩

theorem denote_square_of_succ {n double : ℕ} (twice : double = 2 * n) :
    denote (sum 1 [symbol 1 "x" n, number 1] 2) =
      MvPolynomial.monomial (Finsupp.single "x" double) 1 +
        (MvPolynomial.monomial (Finsupp.single "x" n) 2 + MvPolynomial.monomial 0 1) := by
  have two : ((2 : Rat).num.toNat) = 2 := rfl
  have middle : MvPolynomial.monomial (Finsupp.single "x" n) (2 : ℚ) = 2 * X "x" ^ n := by
    rw [MvPolynomial.X_pow_eq_monomial, two_mul, ← map_add, one_add_one_eq_two]
  rw [middle, ← MvPolynomial.X_pow_eq_monomial, twice]
  simp only [denote, denoteSum, two, Rat.num_natCast, Int.toNat_natCast, MvPolynomial.C_1,
    MvPolynomial.monomial_zero']
  ring

theorem not_expanded_square_of_succ {n double : ℕ} (positive : n ≠ 0) (twice : double = 2 * n)
    (long : Rational.isWritable double = false) {context : Context} {looks later : ℕ} {r : Expr}
    (poly : IsPolynomial (sum 1 [symbol 1 "x" n, number 1] 2)) :
    (expand (sum 1 [symbol 1 "x" n, number 1] 2) context).run.run looks ≠ (.ok r, later) := by
  intro run
  have represents := (meets_expand poly).returned run
  rw [denote_square_of_succ twice] at represents
  have nonzero : Finsupp.single "x" double ≠ 0 := Finsupp.single_ne_zero.mpr (by omega)
  have lower : Finsupp.single "x" n ≠ Finsupp.single "x" double := fun same =>
    absurd (Finsupp.single_injective "x" same) (by omega)
  have present : Finsupp.single "x" double ∈ (MvPolynomial.monomial (Finsupp.single "x" double) 1 +
      (MvPolynomial.monomial (Finsupp.single "x" n) 2 + MvPolynomial.monomial 0 1) :
        MvPolynomial String ℚ).support := by
    rw [MvPolynomial.mem_support_iff, MvPolynomial.coeff_add, MvPolynomial.coeff_add,
      MvPolynomial.coeff_monomial, MvPolynomial.coeff_monomial, MvPolynomial.coeff_monomial,
      if_pos rfl, if_neg lower, if_neg nonzero.symm]
    norm_num
  have constant : 0 ∈ (MvPolynomial.monomial (Finsupp.single "x" double) 1 +
      (MvPolynomial.monomial (Finsupp.single "x" n) 2 + MvPolynomial.monomial 0 1) :
        MvPolynomial String ℚ).support := by
    simp [MvPolynomial.coeff_monomial, positive, nonzero]
  have occurs : (Finsupp.single "x" double) "x" ≠ 0 := by
    rw [Finsupp.single_eq_same]
    omega
  have writable := represents.isWritable present constant nonzero occurs
  rw [Finsupp.single_eq_same, long] at writable
  cases writable

/-- The square of a power that can be written out, plus one: its first term cannot be, so it is not
expanded, whatever the session. -/
theorem square_of_long_power_not_expanded :
    IsPolynomial (sum 1 [symbol 1 "x" (Rational.digitBound - 1 : ℕ), number 1] 2) ∧
      ∀ (context : Context) (looks later : ℕ) (r : Expr),
        (expand (sum 1 [symbol 1 "x" (Rational.digitBound - 1 : ℕ), number 1] 2) context).run.run looks
          ≠ (.ok r, later) := by
  have two := two_le_digitBound
  have short : Rational.isWritable (Rational.digitBound - 1 : ℕ) = true := by
    rw [isWritable_natCast, decide_eq_true_eq]
    omega
  have long : Rational.isWritable (2 * (Rational.digitBound - 1) : ℕ) = false := by
    rw [isWritable_natCast, decide_eq_false_iff_not]
    omega
  have positive : Rational.digitBound - 1 ≠ 0 := by omega
  have poly := isPolynomial_square_of_succ positive short
  exact ⟨poly, fun _ _ _ _ => not_expanded_square_of_succ positive rfl long poly⟩

end ExactAlgebra.Expr
