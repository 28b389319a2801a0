import ExactAlgebra.Calculus.Integral
import ExactAlgebra.Proofs.PolynomialViews
import Mathlib

/-! Antiderivatives of polynomials. A power goes to a multiple of the next power, and sums of powers are integrated
term by term; differentiating goes back by the same steps. So an expanded polynomial always has an antiderivative
in closed form. -/
namespace ExactAlgebra.Expr
open Engine

variable {x : String} {e r : Expr} {context : Context} {items others : List (ℕ × ℚ)} {c : ℚ} {deeper : Integrator}

theorem PowerSum.inOne_eq (sum : PowerSum x (fun n => n) items e) : inOne e = monomials items := by
  rcases sum.terms with ⟨rfl, rfl⟩ | ⟨-, terms⟩
  · exact (inOne_number 0).trans (map_zero _)
  · rw [← inOne_summands, (terms.map inOne).sum_eq, List.map_map, monomials]
    exact congrArg List.sum (List.map_congr_left fun i _ => inOne_powerTerm i.2 i.1)

theorem PowerSum.isPolynomialIn (unknown : isVariableName x = true) (sum : PowerSum x (fun n => n) items e) :
    IsPolynomialIn x e := by
  have power (c : ℚ) (n : ℕ) : BuiltBy .monomial (powerTerm x c n) ∧ NamesHave (· = x) (powerTerm x c n) := by
    by_cases zero : n = 0
    · subst zero
      exact ⟨.number c, .number c⟩
    · have positive : (0 : ℚ) < n := Nat.cast_pos.mpr (Nat.pos_of_ne_zero zero)
      rw [powerTerm_of_ne (Nat.cast_ne_zero.mpr zero), Int.cast_natCast]
      exact ⟨.symbol unknown ⟨Rat.den_natCast n, positive⟩, .symbol rfl⟩
  rcases sum.cases with ⟨-, rfl⟩ | ⟨i, -, rfl⟩ | ⟨d, es, rfl⟩
  · exact .number 0
  · exact ⟨⟨sum.formed, (power i.2 i.1).1.polynomial⟩, (power i.2 i.1).2⟩
  · obtain ⟨others, -, rfl⟩ := sum.terms_plain
    have each : ∀ t ∈ others.map fun i => powerTerm x (i.2 / d) (i.1 : ℤ),
        BuiltBy .monomial t ∧ NamesHave (· = x) t := by
      intro t member
      obtain ⟨i, -, rfl⟩ := List.mem_map.mp member
      exact power (i.2 / d) i.1
    exact ⟨⟨sum.formed, .sum (fun t member => (each t member).1.polynomial) (fun _ _ => trivial) Scheme.polynomial.one⟩,
      NamesHave.sum.mpr fun t member => (each t member).2⟩

/-- The multiples of the next powers. -/
def raised (items : List (ℕ × ℚ)) : List (ℕ × ℚ) := items.map fun i => (i.1 + 1, i.2)

theorem indices_raised (items : List (ℕ × ℚ)) :
    (raised items).map Prod.fst = (items.map Prod.fst).map (· + 1) := by
  rw [raised, List.map_map, List.map_map]
  rfl

theorem derivative_raised (items : List (ℕ × ℚ)) :
    Polynomial.derivative (monomials (raised items)) = monomials (weighted (fun n => n + 1) items) := by
  induction items with
  | nil => exact Polynomial.derivative_zero
  | cons i rest ih =>
    change Polynomial.derivative (monomials ((i.1 + 1, i.2) :: raised rest)) =
      monomials ((i.1, i.2 * (i.1 + 1)) :: weighted (fun n => n + 1) rest)
    rw [monomials_cons, monomials_cons, Polynomial.derivative_add, Polynomial.derivative_monomial, ih,
      Nat.add_sub_cancel]
    push_cast
    rfl

theorem coeff_zero_raised (items : List (ℕ × ℚ)) : (monomials (raised items)).coeff 0 = 0 := by
  induction items with
  | nil => rfl
  | cons i rest ih =>
    change (monomials ((i.1 + 1, i.2) :: raised rest)).coeff 0 = 0
    rw [monomials_cons, Polynomial.coeff_add, ih, Polynomial.coeff_monomial, if_neg (Nat.succ_ne_zero i.1), add_zero]

theorem Legible.of_raised (legible : Legible (fun n => n) ((raised items).map Prod.fst)) :
    Legible (fun n => n) (items.map Prod.fst) := by
  rw [indices_raised] at legible
  rcases legible with short | writable
  · exact .inl (by rwa [List.length_map] at short)
  · refine .inr fun n listed => ?_
    have bound := writable (n + 1) (List.mem_map_of_mem listed)
    rw [Int.cast_natCast, isWritable_natCast, decide_eq_true_eq] at bound ⊢
    omega

/-- The weights of the powers in the antiderivative. -/
def reciprocals (n : ℕ) : ℚ := ((n : ℚ) + 1)⁻¹

theorem reciprocals_ne_zero (n : ℕ) : reciprocals n ≠ 0 := inv_ne_zero n.cast_add_one_ne_zero

/-- The multiples of powers in the antiderivative. -/
def integrated (items : List (ℕ × ℚ)) : List (ℕ × ℚ) := raised (weighted reciprocals items)

theorem indices_integrated (items : List (ℕ × ℚ)) :
    (integrated items).map Prod.fst = (items.map Prod.fst).map (· + 1) := by
  rw [integrated, indices_raised, indices_weighted]

theorem integrated_concat (items : List (ℕ × ℚ)) (i : ℕ × ℚ) :
    integrated (items ++ [i]) = integrated items ++ [(i.1 + 1, i.2 * reciprocals i.1)] := by
  rw [integrated, weighted, List.map_append, raised, List.map_append]
  rfl

theorem weighted_integrated (items : List (ℕ × ℚ)) :
    weighted (fun n => n + 1) (weighted reciprocals items) = items :=
  weighted_weighted (fun n => inv_mul_cancel₀ n.cast_add_one_ne_zero) items

/-- Integration is not kept from its first step. -/
def AllowsIntegration (context : Context) : Prop :=
  (context.scope.settings.get .integrationDepth).isBelow 0 = .ok false

section

variable (named : Identifier x) (unknown : isVariableName x = true) (allowed : AllowsIntegration context)

include named unknown

theorem meets_integratePower {accepts : Fault → Prop} (n : ℕ) :
    Meets context accepts (integratePower x n) (· = powerTerm x (reciprocals n) (n + 1 : ℕ)) := by
  have other : (n : ℚ) ≠ -1 := fun same => by linarith [n.cast_nonneg (α := ℚ)]
  have next := powRat_bare_powerTerm named unknown (n + 1)
  rw [Nat.cast_succ] at next
  unfold integratePower
  rw [if_neg other, next]
  refine Meets.bind _ (Meets.of_ok rfl) ?_
  rintro _ rfl
  refine (Meets.of_ok (div_powerTerm_number one_ne_zero n.cast_add_one_ne_zero _)).imp ?_
  rintro _ rfl
  rw [one_div, reciprocals]

omit named unknown

include allowed

/-- What a level of integration does before it looks at the integrand. -/
theorem meets_allowed {accepts : Fault → Prop} {post : Option Expr → Prop} {y : Engine (Option Expr)}
    (interrupted : ∀ fault, Interrupted context fault → accepts fault) (formed : e.WellFormed)
    (rest : Meets context accepts y post) :
    Meets context accepts (do
      poll
      if ← (← setting .integrationDepth).isBelow ((0 : Int) : Rat) then return none
      e.checkOpen
      y) post := by
  have limit : Meets context accepts (setting .integrationDepth)
      (· = context.scope.settings.get .integrationDepth) := fun _ => rfl
  refine Meets.bind _ (Engine.meets_poll.accept interrupted) fun _ _ => ?_
  refine Meets.bind _ limit ?_
  rintro _ rfl
  refine Meets.bind _ (Meets.of_ok allowed) ?_
  rintro _ rfl
  rw [if_neg Bool.false_ne_true]
  exact Meets.bind _ (Meets.of_ok (checkOpen_of_wellFormed formed)) fun _ _ => rest

theorem meets_integrateAt_number (levels : ℕ) (product : mul (number c) (bare x) = .ok r) :
    Meets context (Interrupted context) (integrateAt deeper (levels + 1) (number c) x 0) (· = some r) := by
  refine meets_allowed allowed (fun _ => id) trivial ?_
  rw [if_pos (by rfl)]
  refine Meets.bind _ (Meets.of_ok product) ?_
  rintro _ rfl
  exact Meets.pure rfl

include named unknown

theorem meets_integrateAt_power (levels : ℕ) {n : ℕ} (positive : n ≠ 0) :
    Meets context (Interrupted context) (integrateAt deeper (levels + 1) (powerTerm x 1 n) x 0)
      (· = some (powerTerm x (reciprocals n) (n + 1 : ℕ))) := by
  have power : (n : ℤ) ≠ 0 := Nat.cast_ne_zero.mpr positive
  refine meets_allowed allowed (fun _ => id) (wellFormed_powerTerm named unknown one_ne_zero n) ?_
  rw [contains_powerTerm x 1 power, if_neg (by decide), isPlainSum_powerTerm, if_neg Bool.false_ne_true]
  refine Meets.bind _ (Meets.of_ok (stripCoefficient_powerTerm x 1 power)) ?_
  rintro _ rfl
  dsimp only
  rw [if_pos (by simp [isOne]), integrateRest, powerTerm_of_ne power, Int.cast_natCast, integrateSimple,
    if_pos (beq_self_eq_true x)]
  refine Meets.bind (· = .found (powerTerm x (reciprocals n) (n + 1 : ℕ))) ?_ ?_
  · refine Meets.bind _ (meets_integratePower named unknown n) ?_
    rintro _ rfl
    exact Meets.pure rfl
  · rintro _ rfl
    exact Meets.pure rfl

theorem meets_integrateAt_powerTerm (levels n : ℕ) (nonzero : c ≠ 0) :
    Meets context (Interrupted context) (integrateAt deeper (levels + 2) (powerTerm x c n) x 0)
      (· = some (powerTerm x (c * reciprocals n) (n + 1 : ℕ))) := by
  by_cases zero : n = 0
  · subst zero
    have product : mul (number c) (bare x) = .ok (powerTerm x c 1) := by
      simpa [powerTerm, bare] using @mul_number_powerTerm x c 1 nonzero one_ne_zero 1
    rw [Nat.cast_zero, powerTerm_zero, reciprocals, Nat.cast_zero, zero_add, inv_one, mul_one, Nat.zero_add,
      Nat.cast_one]
    exact meets_integrateAt_number allowed (levels + 1) product
  by_cases one : c = 1
  · rw [one, one_mul]
    exact meets_integrateAt_power named unknown allowed (levels + 1) zero
  have power : (n : ℤ) ≠ 0 := Nat.cast_ne_zero.mpr zero
  refine meets_allowed allowed (fun _ => id) (wellFormed_powerTerm named unknown nonzero n) ?_
  rw [contains_powerTerm x c power, if_neg (by decide), isPlainSum_powerTerm, if_neg Bool.false_ne_true]
  refine Meets.bind _ (Meets.of_ok (stripCoefficient_powerTerm x c power)) ?_
  rintro _ rfl
  dsimp only
  rw [if_neg (by simpa [isOne] using one)]
  refine Meets.bind _ (meets_integrateAt_power named unknown allowed levels zero) ?_
  rintro _ rfl
  refine Meets.bind _ (Meets.of_ok (mul_number_powerTerm nonzero (reciprocals_ne_zero n) _)) ?_
  rintro _ rfl
  exact Meets.pure (by rw [mul_comm])

/-- Integration is stopped by the deadline, or where one of several powers in the antiderivative cannot be written
out. -/
def StopsIntegration (context : Context) (items : List (ℕ × ℚ)) (fault : Fault) : Prop :=
  Interrupted context fault ∨ fault = .unsupported ∧ ¬ Legible (fun n => n) ((integrated items).map Prod.fst)

theorem meets_integrateTerms (levels : ℕ) (sum : PowerSum x (fun n => n) (integrated items) e)
    (distinct : ((items ++ others).map Prod.fst).Nodup) (nonzero : ∀ i ∈ others, i.2 ≠ 0) :
    Meets context (StopsIntegration context (items ++ others))
      (integrateTerms (integrateAt deeper (levels + 2)) x 0 e (others.map fun i => powerTerm x i.2 (i.1 : ℤ)))
      fun r? => ∃ r, r? = some r ∧ PowerSum x (fun n => n) (integrated (items ++ others)) r := by
  induction others generalizing items e with
  | nil =>
    rw [List.append_nil]
    exact Meets.pure ⟨e, rfl, sum⟩
  | cons i rest ih =>
    have grown : items ++ i :: rest = (items ++ [i]) ++ rest := by simp
    rw [grown] at distinct ⊢
    have first : ((items ++ [i]).map Prod.fst).Sublist ((items ++ [i] ++ rest).map Prod.fst) :=
      (List.sublist_append_left _ _).map _
    have nonzeroI := nonzero i List.mem_cons_self
    have next := @PowerSum.single x (fun n => n) named unknown (i.1 + 1) (i.2 * reciprocals i.1)
      (mul_ne_zero nonzeroI (reciprocals_ne_zero i.1))
    have apart : ((integrated (items ++ [i])).map Prod.fst).Nodup := by
      rw [indices_integrated]
      exact (distinct.sublist first).map fun _ _ => Nat.succ.inj
    rw [List.map_cons]
    refine Meets.bind _ ((meets_integrateAt_powerTerm named unknown allowed levels i.1 nonzeroI).accept fun _ => .inl) ?_
    rintro _ rfl
    rw [integrated_concat] at apart
    have outcome := sum.add_outcome named unknown Nat.cast_injective next apart
    rw [← integrated_concat, indices_integrated] at outcome
    rcases outcome with ⟨total, added, grows⟩ | ⟨refused, illegible⟩
    · refine Meets.bind _ (Meets.of_ok added) ?_
      rintro _ rfl
      exact ih grows distinct fun j later => nonzero j (List.mem_cons_of_mem _ later)
    · refine Meets.bind (fun _ => False) (Meets.lift (fun r returned => ?_) fun fault failed => ?_) fun _ => False.elim
      · cases refused.symm.trans returned
      · cases refused.symm.trans failed
        refine .inr ⟨rfl, fun legible => illegible (legible.sublist ?_)⟩
        rw [indices_integrated]
        exact first.map _

theorem PowerSum.meets_integrateAt (levels : ℕ) (sum : PowerSum x (fun n => n) items e) :
    Meets context (StopsIntegration context items) (integrateAt deeper (levels + 3) e x 0)
      fun r? => ∃ r, r? = some r ∧ PowerSum x (fun n => n) (integrated items) r := by
  rcases sum.cases with ⟨rfl, rfl⟩ | ⟨i, rfl, rfl⟩ | ⟨d, es, rfl⟩
  · have product : mul Expr.zero (bare x) = .ok Expr.zero := mul_of_isZero rfl
    refine ((meets_integrateAt_number allowed (levels + 2) product).accept fun _ => .inl).imp ?_
    rintro _ rfl
    exact ⟨Expr.zero, rfl, .zero x _⟩
  · have nonzero := sum.nonzero i (List.mem_singleton_self i)
    refine ((meets_integrateAt_powerTerm named unknown allowed (levels + 1) i.1 nonzero).accept fun _ => .inl).imp ?_
    rintro _ rfl
    exact ⟨_, rfl, @PowerSum.single x (fun n => n) named unknown (i.1 + 1) _
      (mul_ne_zero nonzero (reciprocals_ne_zero i.1))⟩
  · obtain ⟨i, member, power⟩ := sum.exists_power
    have inside := sum.contains_of_power member (Nat.cast_ne_zero.mpr power)
    obtain ⟨others, listed, terms⟩ := sum.spread (List.ne_nil_of_mem member)
    have indices := listed.map Prod.fst
    refine meets_allowed allowed (fun _ => .inl) sum.formed ?_
    rw [inside, if_neg (by decide), isPlainSum, if_pos (by rfl), terms]
    refine ((@meets_integrateTerms x Expr.zero context [] others deeper named unknown allowed levels (.zero x fun n => n)
      (indices.nodup_iff.mpr sum.distinct) fun j here => sum.nonzero j (listed.mem_iff.mp here)).accept ?_).imp ?_
    · rintro fault (stopped | ⟨rfl, illegible⟩)
      · exact .inl stopped
      · exact .inr ⟨rfl, fun legible => illegible (legible.perm (((listed.map _).map _).map Prod.fst).symm)⟩
    · rintro _ ⟨r, rfl, total⟩
      exact ⟨r, rfl, total.perm ((listed.map _).map _)⟩

omit unknown named allowed in
theorem exists_integrationDepths (limit : Datum) : ∃ depths, integrationDepths limit = depths + 1 := by
  unfold integrationDepths
  split
  next depth _ => exact ⟨depth.toNat + 1, rfl⟩
  next => exact ⟨8000 - 1, rfl⟩

theorem PowerSum.meets_integrator (depths : ℕ) (sum : PowerSum x (fun n => n) items e) :
    Meets context (StopsIntegration context items) (integrator (depths + 1) e x 0)
      fun r? => ∃ r, r? = some r ∧ PowerSum x (fun n => n) (integrated items) r :=
  sum.meets_integrateAt named unknown allowed (2 * e.size + 5)

omit unknown allowed in
theorem integrationName_some (v : Value) : v.integrationName (some x) = .ok x := by
  have spelled : x.isEmpty = false := by
    rw [← Bool.not_eq_true, String.isEmpty_iff]
    rintro rfl
    exact absurd named (by decide)
  change Except.ok (if x.isEmpty = true then "x" else x) = _
  rw [spelled, if_neg Bool.false_ne_true]

/-- A sum of powers has its antiderivative in closed form, term by term. -/
theorem PowerSum.meets_integrate (sum : PowerSum x (fun n => n) items e) :
    Meets context (StopsIntegration context items) (e.integrate (some x))
      (PowerSum x (fun n => n) (integrated items)) := by
  have closed : Meets context (StopsIntegration context items) ((Value.expr e).integrate (some x))
      fun v => ∃ r, v = .expr r ∧ PowerSum x (fun n => n) (integrated items) r := by
    unfold Value.integrate
    refine meets_guarded (fun _ => .inl) fun guard opens => ?_
    have inside : AllowsIntegration (block context guard) := by
      rw [AllowsIntegration, get_block context guard (by decide)]
      exact allowed
    have depth : Meets (block context guard) (StopsIntegration context items) (setting .integrationDepth)
      fun _ => True := fun _ => trivial
    refine Meets.bind _ (Meets.of_ok (integrationName_some named _)) fun name same => ?_
    rw [same]
    refine Meets.bind (fun r? => ∃ r, r? = some r ∧ PowerSum x (fun n => n) (integrated items) r) ?_ ?_
    · refine Meets.bind _ depth fun limit _ => ?_
      obtain ⟨depths, enough⟩ := exists_integrationDepths limit
      rw [enough]
      exact (sum.meets_integrator named unknown inside depths).accept fun fault stopped =>
        stopped.imp_left fun interrupted => interrupted.of_block opens
    · rintro _ ⟨r, rfl, total⟩
      exact Meets.pure ⟨r, rfl, total⟩
  refine Meets.bind _ closed ?_
  rintro _ ⟨r, rfl, total⟩
  exact Meets.pure total

end

section

variable (named : Identifier x) (unknown : isVariableName x = true)

include named unknown

theorem meets_derive_powerTerm {accepts : Fault → Prop} (nonzero : c ≠ 0) (n : ℕ) :
    Meets context accepts (derive x (powerTerm x c (n + 1 : ℕ))) (· = powerTerm x (c * (n + 1)) n) := by
  have power : ((n + 1 : ℕ) : ℤ) ≠ 0 := Nat.cast_ne_zero.mpr n.succ_ne_zero
  have previous : (((n + 1 : ℕ) : ℤ) : ℚ) - 1 = n := by
    push_cast
    ring
  have scaled : ((powerTerm x 1 n).scale (((n + 1 : ℕ) : ℤ) : ℚ)).scale c = powerTerm x (c * (n + 1)) n := by
    rw [scale_powerTerm x (Int.cast_ne_zero.mpr power), scale_powerTerm x nonzero]
    push_cast
    rw [one_mul, mul_comm]
  rw [powerTerm_of_ne power, derive, if_pos (beq_self_eq_true x), previous, powRat_bare_powerTerm named unknown n]
  refine Meets.bind _ (Meets.of_ok rfl) ?_
  rintro _ rfl
  exact Meets.pure scaled

omit named unknown in
theorem PowerSum.sortTerms_perm {φ : ℕ → ℤ} {es : List Expr} (sum : PowerSum x φ items (sum c es 1)) :
    (sortTerms es).Perm (items.map fun i => powerTerm x (i.2 / c) (φ i.1)) := by
  obtain ⟨others, same, rfl⟩ := sum.terms_plain
  exact (Expr.sortTerms_perm _).trans (same.map _)

/-- The derivatives of different powers, which have been divided by a number, are added up. -/
theorem meets_sum_of_derivatives {accepts : Fault → Prop} {d : ℚ} (nonzeroD : d ≠ 0)
    (distinct : (items.map Prod.fst).Nodup) (nonzero : ∀ i ∈ items, i.2 ≠ 0)
    (legible : Legible (fun n => n) (items.map Prod.fst)) :
    Meets context accepts ((items.map fun i => powerTerm x (i.2 / d) (i.1 + 1 : ℕ)).foldlM
        (fun total t => do add total ((← derive x t).scale d)) zero)
      (PowerSum x (fun n => n) (weighted (fun n => n + 1) items)) := by
  have indices := indices_weighted (fun n => n + 1) items
  obtain ⟨r, added, total⟩ := @PowerSum.exists_addAll x (fun n => n) (weighted (fun n => n + 1) items) named unknown
    Nat.cast_injective (indices ▸ distinct) (nonzero_weighted Nat.cast_add_one_ne_zero nonzero) (indices ▸ legible)
  rw [addAll, weighted, List.foldlM_map, List.foldlM_map] at added
  rw [List.foldlM_map]
  refine (Meets.foldlM_lift (f := fun total i => Expr.add total (powerTerm x (i.2 * (i.1 + 1)) (i.1 : ℤ)))
    (fun total i here refuses => ?_) fun fault failed => ?_).imp fun s computed => ?_
  · have scaled : (powerTerm x (i.2 / d * (i.1 + 1)) (i.1 : ℤ)).scale d = powerTerm x (i.2 * (i.1 + 1)) i.1 := by
      rw [scale_powerTerm x nonzeroD, mul_right_comm, div_mul_cancel₀ i.2 nonzeroD]
    refine Meets.bind _ (meets_derive_powerTerm named unknown (div_ne_zero (nonzero i here) nonzeroD) i.1) ?_
    rintro _ rfl
    rw [scaled]
    exact Meets.lift (fun _ => id) refuses
  · cases added.symm.trans failed
  · obtain rfl := Except.ok.inj (added.symm.trans computed)
    exact total

/-- A sum of powers without a constant is differentiated term by term, and no deadline can pass meanwhile. -/
theorem PowerSum.meets_derive {accepts : Fault → Prop} (sum : PowerSum x (fun n => n) (raised items) e) :
    Meets context accepts (derive x e) (PowerSum x (fun n => n) (weighted (fun n => n + 1) items)) := by
  have nonzero : ∀ i ∈ items, i.2 ≠ 0 := fun i member => sum.nonzero (i.1 + 1, i.2) (List.mem_map_of_mem member)
  rcases sum.cases with ⟨none, rfl⟩ | ⟨j, one, rfl⟩ | ⟨d, es, rfl⟩
  · obtain rfl := List.map_eq_nil_iff.mp none
    exact Meets.pure (.zero x _)
  · obtain ⟨i, rfl, rfl⟩ := List.map_eq_singleton_iff.mp one
    have nonzero := nonzero i (List.mem_singleton_self i)
    refine (meets_derive_powerTerm named unknown nonzero i.1).imp ?_
    rintro _ rfl
    exact @PowerSum.single x (fun n => n) named unknown i.1 _ (mul_ne_zero nonzero i.1.cast_add_one_ne_zero)
  obtain ⟨ordered, listed, terms⟩ : ∃ ordered : List (ℕ × ℚ), ordered.Perm items ∧
      sortTerms es = ordered.map fun i => powerTerm x (i.2 / d) (i.1 + 1 : ℕ) := by
    have all := sum.sortTerms_perm
    rw [raised, List.map_map] at all
    exact exists_of_perm_map all
  have distinct : (items.map Prod.fst).Nodup := by
    have next := sum.distinct
    rw [indices_raised] at next
    exact next.of_map _
  have present : anyContains x es = true := by
    obtain ⟨i, member, power⟩ := sum.exists_power
    exact sum.contains_of_power member (Nat.cast_ne_zero.mpr power)
  rw [derive_sum, if_pos present, if_pos rfl, if_pos rfl, derivePower, if_pos rfl, terms]
  have indices := listed.map Prod.fst
  refine Meets.bind _ (meets_sum_of_derivatives named unknown sum.formed.1 (indices.nodup_iff.mpr distinct)
    (fun i here => nonzero i (listed.mem_iff.mp here)) (sum.legible.of_raised.perm indices.symm)) fun r total => ?_
  rw [scale_one]
  exact Meets.pure (total.perm (listed.map _))

theorem PowerSum.meets_diff (sum : PowerSum x (fun n => n) (raised items) e) :
    Meets context (Interrupted context) (e.diff (some x) 1)
      (PowerSum x (fun n => n) (weighted (fun n => n + 1) items)) := by
  unfold diff
  refine meets_guarded (fun _ => id) fun guard _ => ?_
  rw [if_neg (by decide)]
  refine Meets.bind (fun _ => True) ((Meets.of_ok (checkOpen_of_wellFormed sum.formed)).imp fun _ _ => trivial)
    fun _ _ => ?_
  change Meets _ _ (deriveTimes x 1 e) _
  unfold deriveTimes
  split
  next vanishes =>
    obtain rfl := eq_zero_of_isZero vanishes
    obtain rfl : items = [] := by
      rcases sum.terms with ⟨-, none⟩ | ⟨proper, -⟩
      · exact List.map_eq_nil_iff.mp none
      · cases proper
    exact Meets.pure (.zero x _)
  next => exact Meets.bind _ (sum.meets_derive named unknown) fun d derived => Meets.pure derived

/-- Every polynomial has an antiderivative in closed form once it is expanded, a polynomial that vanishes at zero.
What its derivative is expanded to has the same text as what was integrated. Only a deadline can stop that, or a
degree too long to be written out. -/
theorem expanded_polynomial_has_antiderivative (allowed : AllowsIntegration context) (poly : IsPolynomialIn x e) :
    Meets context (fun fault => Interrupted context fault ∨
        fault = .unsupported ∧ Rational.digitBound ≤ e.formalDegree + 1)
      (do
        let r ← expand e
        let s ← r.integrate (some x)
        let d ← s.diff (some x) 1
        return (r, s, ← expand d))
      fun (r, s, d) => IsPolynomialIn x s ∧ Polynomial.derivative (inOne s) = inOne e ∧ (inOne s).coeff 0 = 0 ∧
        d.render = r.render := by
  refine Meets.bind _ (poly.meets_expand_powerSum.accept fun fault stopped => ?_) ?_
  · exact (interrupted_of_stopped stopped).imp_right fun long => ⟨long.1, long.2.trans (Nat.le_succ _)⟩
  rintro r ⟨items, sum, total⟩
  have degree : (inOne e).natDegree ≤ e.formalDegree := by
    have bound := MvPolynomial.aeval_natDegree_le (denote e) (totalDegree_denote_le e)
      (fun _ => (Polynomial.X : Polynomial ℚ)) (n := 1) fun _ => Polynomial.natDegree_X_le
    rwa [mul_one] at bound
  refine Meets.bind _ ((sum.meets_integrate named unknown allowed).accept fun fault stopped => ?_) fun s integral => ?_
  · refine stopped.imp_right fun ⟨unsupported, illegible⟩ => ⟨unsupported, ?_⟩
    by_contra! short
    refine illegible (.inr fun n listed => ?_)
    rw [indices_integrated] at listed
    obtain ⟨m, here, rfl⟩ := List.mem_map.mp listed
    rw [← List.mem_toFinset, toFinset_indices sum.distinct sum.nonzero, total] at here
    have bound := Polynomial.le_natDegree_of_mem_supp m here
    rw [Int.cast_natCast, isWritable_natCast, decide_eq_true_eq]
    omega
  have derived := @PowerSum.meets_diff x s context (weighted reciprocals items) named unknown integral
  rw [weighted_integrated] at derived
  refine Meets.bind _ (derived.accept fun _ => .inl) fun d back => ?_
  refine Meets.bind _ ((back.meets_expand named unknown Nat.cast_injective).accept fun _ unset =>
    .inl (interrupted_of_unset unset)) fun f expanded => ?_
  refine Meets.pure ⟨integral.isPolynomialIn unknown, ?_, ?_, expanded.render_eq sum⟩
  · rw [integral.inOne_eq, integrated, derivative_raised, weighted_integrated, total]
  · rw [integral.inOne_eq, integrated, coeff_zero_raised]

end

/-- The antiderivative of `(x+1)^2` is found. -/
theorem antiderivative_of_square :
    AllowsIntegration ⟨Session.initial.scope, callWithin maxCallDepth⟩ ∧
      IsPolynomialIn "x" (sum 1 [bare "x", number 1] 2) ∧
      ∃ r s d, Yields ⟨Session.initial.scope, callWithin maxCallDepth⟩
          (do
            let r ← expand (sum 1 [bare "x", number 1] 2)
            let s ← r.integrate (some "x")
            let d ← s.diff (some "x") 1
            return (r, s, ← expand d)) (r, s, d) ∧
        Polynomial.derivative (inOne s) = (Polynomial.X + 1) ^ 2 ∧ d.render = r.render := by
  set context : Context := ⟨Session.initial.scope, callWithin maxCallDepth⟩
  have allowed : AllowsIntegration context := by
    unfold AllowsIntegration
    decide +kernel
  have square : IsPolynomialIn "x" (sum 1 [bare "x", number 1] 2) :=
    ⟨isPolynomial_square, by simp [NamesHave, names, namesAll, bare]⟩
  obtain ⟨⟨r, s, d⟩, found⟩ := Option.isSome_iff_exists.mp (show (((do
      let r ← expand (sum 1 [bare "x", number 1] 2)
      let s ← r.integrate (some "x")
      let d ← s.diff (some "x") 1
      return (r, s, ← expand d) : Engine (Expr × Expr × Expr)) context).run.run 0).1.toOption.isSome = true by
        decide +kernel)
  have integral := @expanded_polynomial_has_antiderivative "x" _ context (by decide) (by decide) allowed square
  clear_value context
  have value : inOne (sum 1 [bare "x", number 1] 2) = (Polynomial.X + 1) ^ 2 := by
    rw [inOne_sum]
    simp [bare]
  obtain ⟨later, run⟩ := exists_run found
  obtain ⟨-, derivative, -, same⟩ := integral.returned run
  exact ⟨allowed, square, r, s, d, ⟨0, later, run⟩, derivative.trans value, same⟩

end ExactAlgebra.Expr
