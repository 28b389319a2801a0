import ExactAlgebra.Laplace.Inverse
import ExactAlgebra.Proofs.PowerFractions
import ExactAlgebra.Session.Evaluation
import Mathlib

/-! The Laplace transform of polynomials and its inverse. A power goes to the reciprocal of the next power,
up to a factorial, and comes back from it; sums of powers are transformed term by term. -/
namespace ExactAlgebra.Expr
open Engine

variable {t s : String} {e r : Expr} {context : Context} {items others : List (ℕ × ℚ)} {c : ℚ}

theorem factorialOf_eq (n : ℕ) : Elementary.factorialOf n = n.factorial := by
  induction n with
  | zero => rfl
  | succ n ih => rw [Elementary.factorialOf, ih, Nat.factorial_succ]

theorem factorial_ne_zero (n : ℕ) : (n.factorial : ℚ) ≠ 0 := Nat.cast_ne_zero.mpr n.factorial_ne_zero

theorem gammaValue_succ (n : ℕ) : gammaValue (n + 1) = .ok (number (n.factorial : ℚ)) := by
  have whole : Rational.isInteger ((n + 1 : ℕ) : ℚ) = true := by
    rw [Rational.isInteger, Rat.den_natCast]
    rfl
  rw [← Nat.cast_succ, gammaValue, if_pos whole, Rat.num_natCast, Int.toNat_natCast, Nat.succ_sub_one,
    factorialOf_eq]

theorem isHalfInteger_natCast (n : ℕ) : isHalfInteger n = true := by
  have double : (n : ℚ) * 2 = (n * 2 : ℕ) := by push_cast; rfl
  rw [isHalfInteger, double, Rational.isInteger, Rat.den_natCast]
  rfl

section

variable (namedT : Identifier t) (unknownT : isVariableName t = true) (namedS : Identifier s)
  (unknownS : isVariableName s = true)

theorem contains_powerTerm (t : String) (c : ℚ) {k : ℤ} (power : k ≠ 0) : (powerTerm t c k).contains t = true := by
  rw [powerTerm_of_ne power]
  exact beq_self_eq_true t

theorem checkOpen_powerTerm (t : String) (c : ℚ) (k : ℤ) : (powerTerm t c k).checkOpen = .ok () := by
  unfold powerTerm
  split
  · rfl
  · rfl

theorem stripCoefficient_powerTerm (t : String) (c : ℚ) {k : ℤ} (power : k ≠ 0) :
    stripCoefficient (powerTerm t c k) t = .ok (number c, powerTerm t 1 k) := by
  unfold stripCoefficient
  rw [checkOpen_powerTerm]
  change (if (!(powerTerm t c k).contains t) = true then pure (powerTerm t c k, one) else _) = _
  rw [contains_powerTerm t c power, if_neg (by decide), powerTerm_of_ne power, powerTerm_of_ne power]
  rfl

include namedS unknownS

theorem meets_laplaceOfPower (n : ℕ) :
    Meets context (Interrupted context) (laplaceOfPower n s)
      (· = some (powerTerm s (n.factorial : ℚ) (reciprocal n))) := by
  have small : ¬ (n : ℚ) ≤ -1 := by
    rw [not_le]
    exact neg_one_lt_zero.trans_le (Nat.cast_nonneg n)
  have refused : (decide ((n : ℚ) ≤ -1) || !isHalfInteger n) = false := by
    rw [isHalfInteger_natCast, decide_eq_false small]
    rfl
  have positive : (n + 1 : ℕ) ≠ 0 := n.succ_ne_zero
  have quotient := div_number_symbol namedS unknownS (factorial_ne_zero n) (Nat.cast_ne_zero (R := ℤ).mpr positive)
  rw [Int.cast_natCast] at quotient
  unfold laplaceOfPower
  rw [refused, if_neg Bool.false_ne_true, gammaValue_succ, ← Nat.cast_succ]
  refine Meets.bind _ (Meets.of_ok rfl) ?_
  rintro _ rfl
  refine Meets.bind _ (Meets.of_ok (powRat_bare namedS unknownS positive)) ?_
  rintro _ rfl
  refine Meets.bind _ (Meets.of_ok quotient) ?_
  rintro _ rfl
  exact Meets.pure rfl

theorem div_number_bare (nonzero : c ≠ 0) : div (number c) (bare s) = .ok (powerTerm s c (reciprocal 0)) := by
  have quotient := div_number_symbol namedS unknownS nonzero one_ne_zero
  rwa [Int.cast_one] at quotient

theorem div_zero_bare : div Expr.zero (bare s) = .ok Expr.zero := by
  have inverted := powRat_symbol namedS unknownS one_ne_zero (show (-1 : ℤ) ≠ 0 by decide)
  rw [Int.cast_one, Int.cast_neg, Int.cast_one] at inverted
  change ((symbol 1 s 1).powRat (-1) >>= mul Expr.zero) = _
  rw [inverted]
  have vanishes (b : Expr) : (Expr.zero.isZero || b.isZero) = true := by
    rw [show Expr.zero.isZero = true from rfl, Bool.true_or]
  exact mul_of_isZero (vanishes (symbol 1 s ((1 * -1 : ℤ) : ℚ)))

theorem meets_laplaceWithin_powerTerm (levels n : ℕ) (nonzero : c ≠ 0) :
    Meets context (Interrupted context) (laplaceWithin (levels + 1) (powerTerm t c n) t s)
      (· = powerTerm s (c * n.factorial) (reciprocal n)) := by
  rw [laplaceWithin, laplaceStep]
  refine Meets.bind _ Engine.meets_poll fun _ _ => ?_
  refine Meets.bind _ (Meets.of_ok (checkOpen_powerTerm t c n)) fun _ _ => ?_
  by_cases zero : n = 0
  · subst zero
    rw [Nat.cast_zero, powerTerm_zero]
    refine (Meets.of_ok (div_number_bare namedS unknownS nonzero)).imp ?_
    rintro _ rfl
    rw [Nat.factorial_zero, Nat.cast_one, mul_one]
  · have power : (n : ℤ) ≠ 0 := Nat.cast_ne_zero.mpr zero
    rw [contains_powerTerm t c power, if_neg (by decide), isPlainSum_powerTerm, if_neg Bool.false_ne_true]
    refine Meets.bind _ (Meets.of_ok (stripCoefficient_powerTerm t c power)) ?_
    rintro _ rfl
    dsimp only
    have ruled : laplaceByRule (laplaceWithin levels) (powerTerm t 1 n) t s = laplaceOfPower n s := by
      rw [powerTerm_of_ne power, Int.cast_natCast]
      rfl
    rw [ruled]
    refine Meets.bind (· = some (powerTerm s (n.factorial : ℚ) (reciprocal n))) ?_ ?_
    · exact meets_laplaceOfPower namedS unknownS n
    · rintro _ rfl
      refine (Meets.of_ok (mul_number_powerTerm nonzero (factorial_ne_zero n) _)).imp ?_
      rintro _ rfl
      rw [mul_comm]

end

def weighted (w : ℕ → ℚ) (items : List (ℕ × ℚ)) : List (ℕ × ℚ) := items.map fun i => (i.1, i.2 * w i.1)

theorem indices_weighted (w : ℕ → ℚ) (items : List (ℕ × ℚ)) :
    (weighted w items).map Prod.fst = items.map Prod.fst := by
  rw [weighted, List.map_map]
  rfl

theorem nonzero_weighted {w : ℕ → ℚ} (weights : ∀ n, w n ≠ 0) (nonzero : ∀ i ∈ items, i.2 ≠ 0) :
    ∀ i ∈ weighted w items, i.2 ≠ 0 := by
  intro i member
  obtain ⟨j, inside, rfl⟩ := List.mem_map.mp member
  exact mul_ne_zero (nonzero j inside) (weights j.1)

/-- A sum with a power of a name has that name in it. -/
theorem PowerSum.contains_of_power {φ : ℕ → ℤ} (sum : PowerSum t φ items e) {i : ℕ × ℚ} (member : i ∈ items)
    (power : φ i.1 ≠ 0) : e.contains t = true := by
  obtain ⟨-, terms⟩ := sum.summands_perm (List.ne_nil_of_mem member)
  exact contains_iff_summands.mpr
    ⟨_, terms.mem_iff.mpr (List.mem_map_of_mem member), contains_powerTerm t i.2 power⟩

/-- One of several different powers is not the power zero. -/
theorem PowerSum.exists_power {es : List Expr} (sum : PowerSum t (fun n => n) items (sum c es 1)) :
    ∃ i ∈ items, i.1 ≠ 0 := by
  by_contra! none
  have several := sum.formed.several_summands
  have distinct := sum.distinct
  have zeros : ∀ n ∈ items.map Prod.fst, n = 0 := by
    intro n listed
    obtain ⟨i, member, rfl⟩ := List.mem_map.mp listed
    exact none i member
  have count : items.length = (Expr.sum c es 1).summands.length := by
    rw [(sum.terms.resolve_left fun zero => by cases zero.1).2.length_eq, List.length_map]
  rw [List.eq_replicate_of_mem zeros, List.nodup_replicate, List.length_map] at distinct
  omega

section

variable (namedT : Identifier t) (unknownT : isVariableName t = true) (namedS : Identifier s)
  (unknownS : isVariableName s = true)

include namedT unknownT namedS unknownS

omit namedT unknownT in
theorem PowerSum.meets_laplace (sum : PowerSum t (fun n => n) items e) :
    Meets context (fun fault => Interrupted context fault ∨
        fault = .unsupported ∧ ¬ Legible reciprocal (items.map Prod.fst))
      (e.laplace t s) (PowerSum s reciprocal (weighted (fun n => n.factorial) items)) := by
  refine meets_guarded (fun _ => .inl) fun guard opens => ?_
  have stops (fault : Fault) (stopped : Interrupted (block context guard) fault) : Interrupted context fault ∨
      fault = .unsupported ∧ ¬ Legible reciprocal (items.map Prod.fst) := .inl (stopped.of_block opens)
  rcases sum.cases with ⟨rfl, rfl⟩ | ⟨i, rfl, rfl⟩ | ⟨c, es, rfl⟩
  · refine Meets.bind _ ((Engine.meets_poll).accept stops) fun _ _ => ?_
    refine Meets.bind _ (Meets.of_ok rfl) fun _ _ => ?_
    refine (Meets.of_ok (?_ : div Expr.zero (bare s) = .ok Expr.zero)).imp ?_
    · exact div_zero_bare namedS unknownS
    · rintro _ rfl
      exact .zero s reciprocal
  · have nonzero := sum.nonzero i (List.mem_singleton_self i)
    refine ((meets_laplaceWithin_powerTerm namedS unknownS _ i.1 nonzero).accept stops).imp ?_
    rintro _ rfl
    exact .single namedS unknownS (mul_ne_zero nonzero (factorial_ne_zero i.1))
  · obtain ⟨i, member, power⟩ := sum.exists_power
    have inside := sum.contains_of_power member (Nat.cast_ne_zero.mpr power)
    obtain ⟨others, listed, terms⟩ := sum.spread (List.ne_nil_of_mem member)
    have nonzero : ∀ i ∈ others, i.2 ≠ 0 := fun i here => sum.nonzero i (listed.mem_iff.mp here)
    have indices := listed.map Prod.fst
    have weights := indices_weighted (fun n => n.factorial) others
    refine Meets.bind _ ((Engine.meets_poll).accept stops) fun _ _ => ?_
    refine Meets.bind _ (Meets.of_ok (checkOpen_of_wellFormed sum.formed)) fun _ _ => ?_
    rw [inside, if_neg (by decide), isPlainSum, if_pos (by rfl), terms]
    have outcome := @PowerSum.addAll_outcome s _ reciprocal [] (weighted (fun n => n.factorial) others)
      namedS unknownS reciprocal_injective (.zero s reciprocal)
      (by
        rw [List.nil_append, weights]
        exact indices.nodup_iff.mpr sum.distinct)
      (nonzero_weighted factorial_ne_zero nonzero)
    rw [List.nil_append, weights, Expr.addAll, weighted, List.foldlM_map, List.foldlM_map] at outcome
    unfold laplaceTerms
    rw [List.foldlM_map]
    refine (Meets.foldlM_lift
      (f := fun total i => Expr.add total (powerTerm s (i.2 * i.1.factorial) (reciprocal i.1)))
      (fun total i here refuses => ?_) fun fault failed => ?_).imp fun r computed => ?_
    · refine Meets.bind _ ((meets_laplaceWithin_powerTerm namedS unknownS _ i.1 (nonzero i here)).accept stops) ?_
      rintro _ rfl
      exact Meets.lift (fun _ => id) refuses
    · rcases outcome with ⟨_, added, -⟩ | ⟨refused, illegible⟩
      · cases added.symm.trans failed
      · cases refused.symm.trans failed
        exact .inr ⟨rfl, fun legible => illegible (legible.perm indices.symm)⟩
    · rcases outcome with ⟨_, added, total⟩ | ⟨refused, -⟩
      · obtain rfl := Except.ok.inj (added.symm.trans computed)
        exact total.perm (listed.map _)
      · cases refused.symm.trans computed

end

section

variable (namedT : Identifier t) (unknownT : isVariableName t = true) (namedS : Identifier s)
  (unknownS : isVariableName s = true)

theorem meets_coeffs?_one : Meets context (Interrupted context) (coeffs? (number 1) s) (· = some [number 1]) := by
  unfold coeffs?
  refine Meets.bind _ ((meets_expand_powerTerm s 1 0).accept fun _ => interrupted_of_unset) ?_
  rintro _ rfl
  refine Meets.bind _ (Meets.of_ok rfl) ?_
  rintro _ rfl
  exact Meets.pure rfl

include namedT unknownT

theorem powRat_bare_powerTerm (n : ℕ) : (bare t).powRat n = .ok (powerTerm t 1 n) := by
  by_cases zero : n = 0
  · subst zero
    obtain ⟨work, limit⟩ := enough_for_one (bare t) (bare t)
    rw [powRat, limit, Nat.cast_zero, Nat.cast_zero, powerTerm_zero]
    unfold powRatWithin
    rfl
  · rw [powRat_bare namedT unknownT zero, powerTerm_of_ne (Nat.cast_ne_zero.mpr zero), Int.cast_natCast]

theorem meets_inverseOfFraction (n : ℕ) :
    Meets context (Interrupted context) (inverseOfFraction (bare s) (number 1) Expr.zero (n + 1) s t)
      (· = some (powerTerm t (n.factorial : ℚ)⁻¹ n)) := by
  have positive : ¬ (n + 1 : ℚ) ≤ 0 := not_le.mpr (by exact_mod_cast n.succ_pos)
  have half : isHalfInteger (n + 1) = true := by exact_mod_cast isHalfInteger_natCast (n + 1)
  have refused : (!Expr.zero.isZero || decide ((n + 1 : ℚ) ≤ 0) || !isHalfInteger (n + 1)) = false := by
    rw [half, decide_eq_false positive]
    rfl
  have isBare : (bare s).isBare s = true := by simp [Expr.isBare, bareName?, bare]
  unfold inverseOfFraction
  rw [isBare, if_pos rfl, refused, if_neg Bool.false_ne_true, gammaValue_succ, add_sub_cancel_right]
  refine Meets.bind _ (Meets.of_ok (powRat_bare_powerTerm namedT unknownT n)) ?_
  rintro _ rfl
  refine Meets.bind _ (Meets.of_ok rfl) ?_
  rintro _ rfl
  refine Meets.bind _ (Meets.of_ok (div_powerTerm_number one_ne_zero (factorial_ne_zero n) n)) ?_
  rintro _ rfl
  rw [one_div]
  refine Meets.bind _ (Meets.of_ok (mul_number_powerTerm one_ne_zero (inv_ne_zero (factorial_ne_zero n)) n)) ?_
  rintro _ rfl
  rw [mul_one]
  exact Meets.pure rfl

include namedS unknownS

theorem meets_inverseOfTerm (n : ℕ) (nonzero : c ≠ 0) :
    Meets context (Interrupted context) (inverseOfTerm (powerTerm s c (reciprocal n)) s t)
      (· = some (powerTerm t (c * (n.factorial : ℚ)⁻¹) n)) := by
  have parts : (denominator s n).stem = bare s ∧ (denominator s n).power = n + 1 ∧
      (denominator s n).isProduct = false := by
    refine ⟨rfl, ?_, rfl⟩
    rw [denominator, power]
    push_cast
    rfl
  unfold inverseOfTerm
  refine Meets.bind _ (Meets.of_ok (stripCoefficient_powerTerm s c (reciprocal_ne_zero n))) ?_
  rintro _ rfl
  refine Meets.bind _ (Meets.of_ok (splitFraction_reciprocal namedS unknownS 1 n)) ?_
  rintro _ rfl
  dsimp only
  rw [parts.2.2, if_neg (by simp [contains])]
  refine Meets.bind _ meets_coeffs?_one ?_
  rintro _ rfl
  dsimp only
  rw [if_neg (by simp), parts.1, parts.2.1]
  refine Meets.bind _ (meets_inverseOfFraction namedT unknownT n) ?_
  rintro _ rfl
  refine Meets.bind _ (Meets.of_ok (mul_number_powerTerm nonzero (inv_ne_zero (factorial_ne_zero n)) n)) ?_
  rintro _ rfl
  rw [mul_comm]
  exact Meets.pure rfl

omit namedT unknownT namedS unknownS in
theorem Legible.previous {indices : List ℕ} (legible : Legible reciprocal indices) :
    Legible (fun n => n) indices := by
  rcases legible with short | writable
  · exact .inl short
  · refine .inr fun n listed => ?_
    have bound := writable n listed
    rw [isWritable_reciprocal, decide_eq_true_eq] at bound
    rw [Int.cast_natCast, isWritable_natCast, decide_eq_true_eq]
    omega

/-- The inverses of the terms of a sum are added up; nothing is left over. -/
theorem meets_inverseOfTerms (sum : PowerSum t (fun n => n) items e) (left : Expr)
    (distinct : ((items ++ others).map Prod.fst).Nodup) (nonzero : ∀ i ∈ others, i.2 ≠ 0)
    (legible : Legible (fun n => n) ((items ++ others).map Prod.fst)) :
    Meets context (Interrupted context)
      (inverseOfTerms s t (others.map fun i => powerTerm s i.2 (reciprocal i.1)) e left) fun parts =>
        PowerSum t (fun n => n) (items ++ weighted (fun n => (n.factorial : ℚ)⁻¹) others) parts.1 ∧
          parts.2 = left := by
  induction others generalizing items e with
  | nil => exact Meets.pure ⟨by rwa [weighted, List.map_nil, List.append_nil], rfl⟩
  | cons i rest ih =>
    have indices : (items ++ i :: rest).map Prod.fst =
        ((items ++ [(i.1, i.2 * (i.1.factorial : ℚ)⁻¹)]) ++ rest).map Prod.fst := by simp
    have first : ((items ++ [(i.1, i.2 * (i.1.factorial : ℚ)⁻¹)]).map Prod.fst).Sublist
        (((items ++ [(i.1, i.2 * (i.1.factorial : ℚ)⁻¹)]) ++ rest).map Prod.fst) :=
      (List.sublist_append_left _ _).map _
    have nonzeroI := nonzero i List.mem_cons_self
    have single := @PowerSum.single t (fun n => n) namedT unknownT i.1 (i.2 * (i.1.factorial : ℚ)⁻¹)
      (mul_ne_zero nonzeroI (inv_ne_zero (factorial_ne_zero i.1)))
    rw [indices] at distinct legible
    obtain ⟨next, added, total⟩ := (sum.add_outcome namedT unknownT Nat.cast_injective single
      (distinct.sublist first)).resolve_right fun refused => refused.2 (legible.sublist first)
    rw [List.map_cons, inverseOfTerms]
    refine Meets.bind _ Engine.meets_poll fun _ _ => ?_
    rw [contains_powerTerm s i.2 (reciprocal_ne_zero i.1), if_pos rfl]
    refine Meets.bind _ (meets_inverseOfTerm namedT unknownT namedS unknownS i.1 nonzeroI) ?_
    rintro _ rfl
    refine Meets.bind _ (Meets.of_ok added) ?_
    rintro _ rfl
    have rest := ih total distinct (fun j later => nonzero j (List.mem_cons_of_mem _ later)) legible
    rw [List.append_assoc] at rest
    exact rest

theorem PowerSum.meets_ilt (sum : PowerSum s reciprocal items e) :
    Meets context (Interrupted context) (e.ilt s t)
      (PowerSum t (fun n => n) (weighted (fun n => (n.factorial : ℚ)⁻¹) items)) := by
  refine meets_guarded (fun _ => id) fun guard opens => ?_
  refine (?_ : Meets (block context guard) (Interrupted (block context guard)) _ _).accept
    fun _ => Interrupted.of_block opens
  refine Meets.bind _ (Meets.of_ok (checkOpen_of_wellFormed sum.formed)) fun _ _ => ?_
  by_cases some : items = []
  · subst some
    rw [sum.eq_zero]
    refine Meets.bind (· = Expr.zero) (Meets.pure rfl) ?_
    rintro _ rfl
    refine Meets.bind (· = (Expr.zero, Expr.zero)) ?_ ?_
    · refine Meets.bind _ Engine.meets_poll fun _ _ => ?_
      refine Meets.bind (· = none) (Meets.pure rfl) ?_
      rintro _ rfl
      exact Meets.bind (· = Expr.zero) (Meets.of_ok rfl) fun _ same => Meets.pure (same ▸ rfl)
    · rintro _ rfl
      exact Meets.pure (.zero t _)
  · obtain ⟨i, member⟩ := List.exists_mem_of_ne_nil items some
    rw [sum.contains_of_power member (reciprocal_ne_zero i.1), if_pos rfl]
    refine Meets.bind _ (sum.meets_partfrac namedS unknownS some) fun pieces same => ?_
    obtain ⟨others, listed, terms⟩ := same.spread some
    have indices := listed.map Prod.fst
    beta_reduce
    rw [terms]
    refine Meets.bind _ (meets_inverseOfTerms namedT unknownT namedS unknownS (.zero t _) Expr.zero
      (indices.nodup_iff.mpr sum.distinct) (fun j here => sum.nonzero j (listed.mem_iff.mp here))
      ((sum.legible.perm indices.symm).previous)) ?_
    rintro ⟨result, _⟩ ⟨total, rfl⟩
    exact Meets.pure (total.perm (listed.map _))

end

/-- The coefficients that are not zero with their indices. -/
def indexed (n : ℕ) : List ℚ → List (ℕ × ℚ)
  | [] => []
  | c :: cs => if c = 0 then indexed (n + 1) cs else (n, c) :: indexed (n + 1) cs

theorem indexed_bound (n : ℕ) (cs : List ℚ) : ∀ i ∈ indexed n cs, n ≤ i.1 ∧ i.1 < n + cs.length ∧ i.2 ≠ 0 := by
  induction cs generalizing n with
  | nil => simp [indexed]
  | cons c cs ih =>
    have later : ∀ i ∈ indexed (n + 1) cs, n ≤ i.1 ∧ i.1 < n + (c :: cs).length ∧ i.2 ≠ 0 := by
      intro i member
      obtain ⟨above, below, nonzero⟩ := ih (n + 1) i member
      rw [List.length_cons]
      exact ⟨by omega, by omega, nonzero⟩
    rw [indexed]
    split
    · exact later
    next some => exact List.forall_mem_cons.mpr ⟨⟨le_rfl, by simp, some⟩, later⟩

theorem nodup_indexed (n : ℕ) (cs : List ℚ) : ((indexed n cs).map Prod.fst).Nodup := by
  induction cs generalizing n with
  | nil => exact List.nodup_nil
  | cons c cs ih =>
    rw [indexed]
    split
    · exact ih (n + 1)
    · rw [List.map_cons, List.nodup_cons]
      refine ⟨fun listed => ?_, ih (n + 1)⟩
      obtain ⟨i, member, same⟩ := List.mem_map.mp listed
      have above := (indexed_bound (n + 1) cs i member).1
      omega

section

variable (namedT : Identifier t) (unknownT : isVariableName t = true) (namedS : Identifier s)
  (unknownS : isVariableName s = true)

include namedT unknownT

theorem addTerms_eq_addAll (n : ℕ) (start : Expr) (cs : List ℚ) :
    Poly.addTerms t n start cs = addAll start ((indexed n cs).map fun i => powerTerm t i.2 (i.1 : ℤ)) := by
  induction cs generalizing n start with
  | nil => rfl
  | cons c cs ih =>
    rw [Poly.addTerms, indexed]
    split
    · exact ih (n + 1) start
    next nonzero =>
      have scaled : (powerTerm t 1 (n : ℤ)).scale c = powerTerm t c n := by
        rw [scale_powerTerm t nonzero, one_mul]
      have step : (start.add ((powerTerm t 1 (n : ℤ)).scale c) >>= fun sum => Poly.addTerms t (n + 1) sum cs) =
          addAll start (((n, c) :: indexed (n + 1) cs).map fun i => powerTerm t i.2 (i.1 : ℤ)) := by
        rw [scaled]
        change (start.add _ >>= fun sum => Poly.addTerms t (n + 1) sum cs) = (start.add _ >>= fun sum => addAll sum _)
        exact congrArg _ (funext fun sum => ih (n + 1) sum)
      by_cases zero : n = 0
      · subst zero
        exact step
      · rw [if_neg zero, powRat_bare_powerTerm namedT unknownT n]
        exact step

/-- A polynomial is written out as the sum of its terms unless one of several cannot be written. -/
theorem toExpr_powers (p : Poly) :
    (∃ e, p.toExpr t = .ok e ∧ PowerSum t (fun n => n) (indexed 0 p.coefficients) e) ∨
      (p.toExpr t = .error .unsupported ∧ ¬ Legible (fun n => n) ((indexed 0 p.coefficients).map Prod.fst)) := by
  rw [Poly.toExpr, addTerms_eq_addAll namedT unknownT]
  exact PowerSum.addAll_outcome namedT unknownT Nat.cast_injective (.zero t fun n => n)
    (nodup_indexed 0 p.coefficients) fun i member => (indexed_bound 0 p.coefficients i member).2.2

/-- A polynomial written out is the sum of its terms. -/
theorem powerSum_of_toExpr {p : Poly} (written : p.toExpr t = .ok e) :
    PowerSum t (fun n => n) (indexed 0 p.coefficients) e := by
  rcases toExpr_powers namedT unknownT p with ⟨r, added, sum⟩ | ⟨refused, -⟩
  · obtain rfl := Except.ok.inj (added.symm.trans written)
    exact sum
  · cases refused.symm.trans written

theorem toExpr_refused {p : Poly} {fault : Fault} (refused : p.toExpr t = .error fault) :
    fault = .unsupported ∧ Rational.digitBound ≤ p.toPolynomial.natDegree := by
  rcases toExpr_outcome namedT unknownT p with ⟨e, written, -⟩ | ⟨failed, long⟩
  · cases written.symm.trans refused
  · cases failed.symm.trans refused
    exact ⟨rfl, long⟩

omit namedT unknownT in
theorem digitBound_le_of_not_legible {p : Poly}
    (illegible : ¬ Legible reciprocal ((indexed 0 p.coefficients).map Prod.fst)) :
    Rational.digitBound ≤ p.toPolynomial.natDegree + 1 := by
  by_contra! short
  refine illegible (.inr fun n listed => ?_)
  obtain ⟨i, member, rfl⟩ := List.mem_map.mp listed
  have bound := (indexed_bound 0 p.coefficients i member).2.1
  rw [isWritable_reciprocal, decide_eq_true_eq]
  rw [Poly.natDegree_toPolynomial] at short
  omega

omit namedT unknownT in
/-- Weights that cancel leave the coefficients. -/
theorem weighted_weighted {v w : ℕ → ℚ} (inverse : ∀ n, v n * w n = 1) (items : List (ℕ × ℚ)) :
    weighted w (weighted v items) = items := by
  rw [weighted, weighted, List.map_map]
  refine (List.map_congr_left fun i _ => ?_).trans (List.map_id items)
  refine Prod.ext rfl ?_
  rw [Function.comp_apply, mul_assoc, inverse, mul_one, id]

include namedS unknownS

/-- Every polynomial comes back from its transform, written as before. -/
theorem ilt_laplace (p : Poly) :
    Meets context (fun fault => Interrupted context fault ∨
        fault = .unsupported ∧ Rational.digitBound ≤ p.toPolynomial.natDegree + 1)
      (do
        let e ← p.toExpr t
        let r ← (← e.laplace t s).ilt s t
        return (e, r))
      fun pair => pair.2.render = pair.1.render := by
  refine Meets.bind (p.toExpr t = .ok ·) (Meets.lift (fun _ => id) fun fault refused => ?_) fun e written => ?_
  · obtain ⟨same, long⟩ := toExpr_refused namedT unknownT refused
    exact .inr ⟨same, by omega⟩
  have sum := powerSum_of_toExpr namedT unknownT written
  refine Meets.bind _ ((sum.meets_laplace namedS unknownS).accept ?_) fun transformed reciprocals => ?_
  · rintro fault (stopped | ⟨same, illegible⟩)
    · exact .inl stopped
    · exact .inr ⟨same, digitBound_le_of_not_legible illegible⟩
  refine Meets.bind _ ((reciprocals.meets_ilt namedT unknownT namedS unknownS).accept fun _ => .inl) fun r back => ?_
  rw [weighted_weighted fun n => mul_inv_cancel₀ (factorial_ne_zero n)] at back
  exact Meets.pure (back.render_eq sum)

end

/-- The expression is a sum of multiples of `s^(-k)` with positive `k`. -/
structure IsReciprocalSum (s : String) (e : Expr) : Prop where
  formed : e.WellFormed
  terms : e = Expr.zero ∨ ∀ u ∈ e.summands, ∃ (c : ℚ) (k : ℕ), 1 ≤ k ∧ u = symbol c s (-k)

theorem WellFormed.symbol_coeff_ne_zero {p : ℚ} (formed : e.WellFormed) (member : symbol c s p ∈ e.summands) :
    c ≠ 0 := by
  rcases summands_cases e with single | ⟨d, es, rfl⟩
  · rw [single] at member
    obtain rfl := List.mem_singleton.mp member
    exact formed.1
  · rw [summands_plain] at member
    obtain ⟨u, inside, same⟩ := List.mem_map.mp member
    have formedU := allWellFormed_iff.mp formed.2.2.2 u inside
    have coeff := congrArg Expr.coeff same
    rw [formedU.coeff_withCoeff] at coeff
    have proper : u.isNumber = false := by
      cases u with
      | number => cases same
      | _ => rfl
    have nonzero := mul_ne_zero (formedU.coeff_ne_zero proper) formed.1
    rw [coeff] at nonzero
    exact nonzero

theorem IsReciprocalSum.powerSum (sum : IsReciprocalSum s e) : ∃ items, PowerSum s reciprocal items e := by
  rcases sum.terms with rfl | terms
  · exact ⟨[], .zero s reciprocal⟩
  · obtain ⟨items, same⟩ : e.summands ∈ Set.range (List.map fun i : ℕ × ℚ => powerTerm s i.2 (reciprocal i.1)) := by
      rw [Set.range_list_map]
      intro u member
      obtain ⟨c, k, positive, rfl⟩ := terms u member
      obtain ⟨n, rfl⟩ := Nat.exists_eq_add_of_le' positive
      refine ⟨(n, c), (powerTerm_reciprocal s c n).trans ?_⟩
      rw [reciprocal]
      push_cast
      rfl
    refine ⟨items, sum.formed, fun i member => ?_, .inr ⟨?_, .of_eq same.symm⟩⟩
    · have inside : symbol i.2 s (reciprocal i.1) ∈ e.summands := by
        rw [← same, ← powerTerm_reciprocal]
        exact List.mem_map_of_mem member
      exact sum.formed.symbol_coeff_ne_zero inside
    · cases zero : e.isZero with
      | false => rfl
      | true =>
        obtain rfl := eq_zero_of_isZero zero
        obtain ⟨c, k, -, other⟩ := terms Expr.zero (List.mem_singleton_self _)
        cases other

/-- Adding up keeps such sums, also where powers merge or cancel. -/
theorem IsReciprocalSum.add {a b : Expr} (sumA : IsReciprocalSum s a) (sumB : IsReciprocalSum s b)
    (returned : Expr.add a b = .ok r) : IsReciprocalSum s r := by
  refine ⟨add_wellFormed sumA.formed sumB.formed returned, ?_⟩
  rcases sumA.terms with rfl | termsA
  · obtain rfl : b = r := Except.ok.inj returned
    exact sumB.terms
  rcases sumB.terms with rfl | termsB
  · cases zero : a.isZero with
    | true =>
      obtain rfl := eq_zero_of_isZero zero
      exact .inl (Except.ok.inj returned).symm
    | false =>
      obtain rfl := Except.ok.inj ((add_zero_right zero).symm.trans returned)
      exact sumA.terms
  have each : ∀ u ∈ a.summands ++ b.summands, ∃ (c : ℚ) (k : ℕ), 1 ≤ k ∧ u = symbol c s (-k) :=
    fun u member => (List.mem_append.mp member).elim (termsA u) (termsB u)
  rcases add_cases returned with ⟨-, rfl⟩ | ⟨-, rfl⟩ | ⟨x, y, rfl, -, -⟩ | ⟨keyed, rfl⟩
  · exact sumB.terms
  · exact sumA.terms
  · obtain ⟨c, k, -, other⟩ := termsA (number x) (List.mem_singleton_self _)
    cases other
  · have collected := collected_summands sumA.formed sumB.formed keyed
    have merged := @forall_foldl_insertTerm (fun u => ∃ (c : ℚ) (k : ℕ), 1 ≤ k ∧ u = symbol c s (-k))
      (fun kept d => by
        obtain ⟨c, k, positive, rfl⟩ := kept
        exact ⟨d, k, positive, rfl⟩)
      ((a.summands ++ b.summands).map rankTerm) [] (by simp) fun u member => by
        obtain ⟨v, inside, rfl⟩ := List.mem_map.mp member
        exact each v inside
    cases zero : (mergeTerms ((a.summands ++ b.summands).map rankTerm)).isZero with
    | true => exact .inl (eq_zero_of_isZero zero)
    | false =>
      refine .inr fun u member => ?_
      obtain ⟨v, inside, rfl⟩ := List.mem_map.mp (summands_ofTerms collected zero ▸ member)
      exact merged v (mem_remaining.mp inside).1

section

variable (namedT : Identifier t) (unknownT : isVariableName t = true) (namedS : Identifier s)
  (unknownS : isVariableName s = true)

include namedT unknownT namedS unknownS

/-- Every sum of multiples of reciprocal powers comes back from the polynomial it is the transform of. -/
theorem laplace_ilt (sum : IsReciprocalSum s e) :
    Meets context (Interrupted context) (e.ilt s t >>= fun f => f.laplace t s) fun r => r.render = e.render := by
  obtain ⟨items, sum⟩ := sum.powerSum
  refine Meets.bind _ (sum.meets_ilt namedT unknownT namedS unknownS) fun f inverse => ?_
  have indices := indices_weighted (fun n => (n.factorial : ℚ)⁻¹) items
  refine ((inverse.meets_laplace namedS unknownS).accept ?_).imp fun r back => ?_
  · rintro fault (stopped | ⟨-, illegible⟩)
    · exact stopped
    · rw [indices] at illegible
      exact absurd sum.legible illegible
  · rw [weighted_weighted fun n => inv_mul_cancel₀ (factorial_ne_zero n)] at back
    exact back.render_eq sum

/-- The transform of a polynomial is taken back by the inverse, and a sum of multiples of reciprocal powers
comes back from its inverse. Only a deadline can stop that, or a degree with too many digits. -/
theorem laplace_inverse :
    (∀ p : Poly, Meets context (fun fault => Interrupted context fault ∨
        fault = .unsupported ∧ Rational.digitBound ≤ p.toPolynomial.natDegree + 1)
      (do
        let e ← p.toExpr t
        let r ← (← e.laplace t s).ilt s t
        return (e, r))
      fun pair => pair.2.render = pair.1.render) ∧
    ∀ e, IsReciprocalSum s e →
      Meets context (Interrupted context) (e.ilt s t >>= fun f => f.laplace t s) fun r => r.render = e.render :=
  ⟨ilt_laplace namedT unknownT namedS unknownS, fun _ => laplace_ilt namedT unknownT namedS unknownS⟩

end

/-- The cubic `3*t^3-t/2+5` and `1/s-3/s^2`. -/
theorem cubic_comes_back :
    (∃ e r, Yields ⟨Session.initial.scope, callWithin maxCallDepth⟩
        (do
          let e ← (Poly.ofList [5, -1 / 2, 0, 3]).toExpr "t"
          let r ← (← e.laplace "t" "s").ilt "s" "t"
          return (e, r)) (e, r) ∧ r.render = e.render) ∧
      ∃ e r, Expr.add (symbol 1 "s" (-1)) (symbol (-3) "s" (-2)) = .ok e ∧
        Yields ⟨Session.initial.scope, callWithin maxCallDepth⟩
          (e.ilt "s" "t" >>= fun f => f.laplace "t" "s") r ∧ r.render = e.render := by
  set context : Context := ⟨Session.initial.scope, callWithin maxCallDepth⟩
  have back := @laplace_inverse "t" "s" context (by decide) (by decide) (by decide) (by decide)
  obtain ⟨pair, found⟩ := Option.isSome_iff_exists.mp (show (((do
      let e ← (Poly.ofList [5, -1 / 2, 0, 3]).toExpr "t"
      let r ← (← e.laplace "t" "s").ilt "s" "t"
      return (e, r) : Engine (Expr × Expr)) context).run.run 0).1.toOption.isSome = true by decide +kernel)
  obtain ⟨other, foundOther⟩ := Option.isSome_iff_exists.mp (show (((do
      let e ← Expr.add (symbol 1 "s" (-1)) (symbol (-3) "s" (-2))
      e.ilt "s" "t" >>= fun f => f.laplace "t" "s" : Engine Expr) context).run.run 0).1.toOption.isSome = true by
        decide +kernel)
  have single (c : ℚ) (nonzero : c ≠ 0) (k : ℕ) (positive : 1 ≤ k) : IsReciprocalSum "s" (symbol c "s" (-k)) := by
    have formed := @wellFormed_symbol "s" (by decide) (by decide) c nonzero (-k) (by omega)
    rw [Int.cast_neg, Int.cast_natCast] at formed
    exact ⟨formed, .inr fun u member => ⟨c, k, positive, List.mem_singleton.mp member⟩⟩
  clear_value context
  obtain ⟨later, run⟩ := exists_run found
  obtain ⟨laterOther, runOther⟩ := exists_run foundOther
  obtain ⟨e, added, yields⟩ := Yields.bind ⟨0, laterOther, runOther⟩
  have written : Expr.add (symbol 1 "s" (-1)) (symbol (-3) "s" (-2)) = .ok e := by
    obtain ⟨looks, after, returned⟩ := added
    cases computed : Expr.add (symbol 1 "s" (-1)) (symbol (-3) "s" (-2)) with
    | ok =>
      rw [computed] at returned
      cases returned
      rfl
    | error =>
      rw [computed] at returned
      cases returned
  have first := single 1 one_ne_zero 1 le_rfl
  have second := single (-3) (by norm_num) 2 (by norm_num)
  rw [Nat.cast_one] at first
  rw [Nat.cast_two] at second
  exact ⟨⟨pair.1, pair.2, ⟨0, later, run⟩, (back.1 (Poly.ofList [5, -1 / 2, 0, 3])).returned run⟩, e, other, written,
    yields, (back.2 e (first.add second written)).yielded yields⟩

end ExactAlgebra.Expr
