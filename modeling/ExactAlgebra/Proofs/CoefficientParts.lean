import ExactAlgebra.Proofs.LaplaceLinearity
import ExactAlgebra.Proofs.Verdicts
import Mathlib

/-! Splitting off the coefficient of an unknown is exact. The factors of a product fall into those that hold the
unknown and those that do not; neither part merges when it is multiplied up again, nor do the two parts when they
are multiplied, so the product is written as the expression was. Nothing is split off a second time, so what is left
of an integrand needs one more level of integration at most, and levels for all nodes of an integrand suffice. -/
namespace ExactAlgebra.Expr

variable {e t : Expr} {x : String} {es : List Expr}

theorem isNumber_of_contains (inside : e.contains x = true) : e.isNumber = false := by
  cases e with
  | number => cases inside
  | _ => rfl

/-- Whatever the shape of the expression, one as the other factor leaves it as it is. -/
theorem mul_one_right (e : Expr) : mul e one = .ok e := by
  cases number : e.isNumber with
  | false =>
    obtain ⟨n, limit⟩ := enough_for_one e one
    rw [mul, limit, one, mulWithin_number_right _ number one_ne_zero, scale_one]
  | true =>
    cases e with
    | number c =>
      by_cases none : c = 0
      · rw [none, mul_of_isZero (by simp [isZero])]
        rfl
      · rw [number_mul none, one, scale, if_neg none, withCoeff, coeff, one_mul]
    | _ => cases number

theorem contains_ofFactors {factors : List Expr} (free : ∀ f ∈ factors, f.contains x = false) (k : Rat) :
    (ofFactors factors k).contains x = false := by
  unfold ofFactors
  split
  · rfl
  match factors with
  | [] => rfl
  | [f] => exact (contains_withCoeff f k x).trans (free f List.mem_cons_self)
  | f :: g :: rest => exact anyContains_eq_false.mpr free

/-- A coefficient free of the unknown and a rest, every factor of which holds it, whose product is written as the
expression is. -/
structure SplitsAt (x : String) (e coefficient rest : Expr) : Prop where
  free : coefficient.contains x = false
  bound : ∀ f ∈ rest.factors, f.contains x = true
  none : e.contains x = false → rest = one
  product : ∃ m, mul coefficient rest = .ok m ∧ m.render = e.render

/-- An expression without the unknown is its own coefficient. -/
theorem splitsAt_free (free : e.contains x = false) : SplitsAt x e e one where
  free := free
  bound f member := by cases member
  none _ := rfl
  product := ⟨e, mul_one_right e, rfl⟩

theorem stripCoefficient_single (formed : e.WellFormed) (inside : e.contains x = true) (single : e.isProduct = false) :
    e.stripCoefficient x = .ok (number e.coeff, e.unit) := by
  unfold stripCoefficient
  rw [checkOpen_of_wellFormed formed, inside]
  cases e with
  | product => cases single
  | _ => rfl

/-- A single factor with the unknown is split into its number and itself. -/
theorem splitsAt_single (formed : e.WellFormed) (inside : e.contains x = true) (single : e.isProduct = false) :
    SplitsAt x e (number e.coeff) e.unit where
  free := rfl
  bound f member := by
    rw [factors_single (formed.isFactor_unit (isNumber_of_contains inside) single).2] at member
    rw [List.mem_singleton.mp member, unit, contains_withCoeff, inside]
  none free := by
    rw [inside] at free
    cases free
  product := by
    have nonzero : e.coeff ≠ 0 := formed.coeff_ne_zero (isNumber_of_contains inside)
    refine ⟨e, ?_, rfl⟩
    rw [number_mul nonzero, scale, if_neg nonzero, unit, withCoeff_withCoeff, formed.coeff_withCoeff, one_mul,
      withCoeff_coeff]

section Products

variable {c : Rat} {factors : List Expr} (formed : (product c factors).WellFormed)
include formed

/-- The factors without the unknown are multiplied up to a product of all of them. -/
theorem mulAll_filter (p : Expr → Bool) {k : Rat} (nonzero : k ≠ 0) :
    ∃ after, mulAll (number k) (factors.filter p) = .ok (ofFactors after k) ∧ after.Perm (factors.filter p) := by
  have assorted : Assorted ([] ++ factors.filter p) :=
    (Assorted.of_product formed).sublist List.filter_sublist
  simpa [ofFactors_nil nonzero] using assorted.mulAll_ofFactors nonzero

theorem stripCoefficient_product {free bound : List Expr} (inside : (product c factors).contains x = true)
    (first : mulAll (number c) (factors.filter fun f => !f.contains x) = .ok (ofFactors free c))
    (second : mulAll one (factors.filter fun f => f.contains x) = .ok (ofFactors bound 1)) :
    (product c factors).stripCoefficient x = .ok (ofFactors free c, ofFactors bound 1) := by
  rw [stripCoefficient, checkOpen_of_wellFormed formed]
  change (if !(product c factors).contains x then _ else _) = _
  rw [inside, first]
  change (mulAll one _ >>= _) = _
  rw [second]
  rfl

/-- A product with the unknown is split into its factors without and with it. -/
theorem splitsAt_product (inside : (product c factors).contains x = true) :
    ∃ coefficient rest, (product c factors).stripCoefficient x = .ok (coefficient, rest) ∧
      SplitsAt x (product c factors) coefficient rest := by
  have nonzero : c ≠ 0 := formed.1
  obtain ⟨free, first, permFree⟩ := mulAll_filter formed (fun f => !f.contains x) nonzero
  obtain ⟨bound, second, permBound⟩ := mulAll_filter formed (fun f => f.contains x) one_ne_zero
  have all : (free ++ bound).Perm factors := by
    refine (permFree.append permBound).trans (List.perm_append_comm.trans ?_)
    exact List.filter_append_perm (fun f => f.contains x) factors
  have assorted : Assorted (free ++ bound) := (Assorted.of_product formed).perm all.symm
  have several : 2 ≤ factors.length := formed.2.1.several
  refine ⟨ofFactors free c, ofFactors bound 1, stripCoefficient_product formed inside first second, ?_, ?_, ?_, ?_⟩
  · refine contains_ofFactors (fun f member => ?_) c
    simpa using (List.mem_filter.mp (permFree.mem_iff.mp member)).2
  · intro f member
    have stored := (factors_ofFactors one_ne_zero assorted.right.proper).1.mem_iff.mp member
    exact (List.mem_filter.mp (permBound.mem_iff.mp stored)).2
  · intro none
    rw [inside] at none
    cases none
  · obtain ⟨after, multiplied, perm⟩ := assorted.mul nonzero one_ne_zero
    have whole := perm.trans all
    refine ⟨_, multiplied, ?_⟩
    rw [mul_one, ofFactors_several (whole.length_eq ▸ several) nonzero]
    exact ((Similars.of_perm whole.symm).product formed.2.1.distinct c).render.symm

end Products

/-- Splitting off the coefficient of an unknown is exact: the coefficient is free of the unknown, every factor of
the rest holds it, and the product of both is written as the expression is. -/
theorem stripCoefficient_splits (formed : e.WellFormed) (x : String) :
    ∃ coefficient rest, e.stripCoefficient x = .ok (coefficient, rest) ∧ SplitsAt x e coefficient rest := by
  cases inside : e.contains x with
  | false =>
    refine ⟨e, one, ?_, splitsAt_free inside⟩
    unfold stripCoefficient
    rw [checkOpen_of_wellFormed formed, inside]
    rfl
  | true =>
    cases single : e.isProduct with
    | false =>
      exact ⟨_, _, stripCoefficient_single formed inside single, splitsAt_single formed inside single⟩
    | true =>
      cases e with
      | product c factors => exact splitsAt_product formed inside
      | _ => cases single

/-- What is split off `2*pi*a*sin(x)`, and what is left. -/
theorem stripCoefficient_of_multiple_of_sine :
    let e := product 2 [symbol 1 "pi" 1, symbol 1 "a" 1, call 1 "sin" [symbol 1 "x" 1] 1]
    e.WellFormed ∧ ∃ coefficient rest, e.stripCoefficient "x" = .ok (coefficient, rest) ∧
      coefficient.render = .ok "2*pi*a" ∧ rest.render = .ok "sin(x)" ∧ SplitsAt "x" e coefficient rest := by
  intro e
  have formed : e.WellFormed := by decide +kernel
  have written : (do
      let parts ← e.stripCoefficient "x"
      return (← parts.1.render, ← parts.2.render)).toOption = some ("2*pi*a", "sin(x)") := by decide +kernel
  obtain ⟨⟨coefficient, rest⟩, split, rendered⟩ := Outcome.bind_ok (Outcome.ok_of_toOption written)
  obtain ⟨_, textC, rendered⟩ := Outcome.bind_ok rendered
  obtain ⟨_, textR, same⟩ := Outcome.bind_ok rendered
  cases same
  obtain ⟨_, _, found, splits⟩ := stripCoefficient_splits formed "x"
  obtain ⟨rfl, rfl⟩ := Prod.mk.inj (Except.ok.inj (split.symm.trans found))
  exact ⟨formed, coefficient, rest, split, textC, textR, splits⟩

theorem size_le_sizeAll (member : e ∈ es) : e.size ≤ sizeAll es := by
  induction es with
  | nil => cases member
  | cons f rest ih =>
    rw [sizeAll]
    rcases List.mem_cons.mp member with rfl | later
    · omega
    · have := ih later
      omega

theorem size_lt_of_mem_spreadTerms (plain : e.isPlainSum = true) (member : t ∈ e.spreadTerms) : t.size < e.size := by
  cases e with
  | sum c terms p =>
    obtain rfl : p = 1 := by simpa [isPlainSum] using plain
    rw [spreadTerms, if_pos rfl] at member
    obtain ⟨u, inside, rfl⟩ := List.mem_map.mp member
    have stored := size_le_sizeAll ((sortTerms_perm terms).mem_iff.mp inside)
    rw [size_withCoeff, size]
    omega
  | _ => cases plain

/-- What is left without the coefficient is smaller, or nothing can be split off it any more. -/
theorem stripCoefficient_descends (tidy : Tidy e) (inside : e.contains x = true) (flat : e.isPlainSum = false) :
    ∃ coefficient rest, e.stripCoefficient x = .ok (coefficient, rest) ∧ Tidy rest ∧
      (rest.size < e.size ∨ rest.isPlainSum = false ∧ ∃ after, rest.stripCoefficient x = .ok (one, after)) := by
  cases single : e.isProduct with
  | false =>
    refine ⟨_, _, stripCoefficient_single tidy.formed inside single, tidy.unit, .inr ⟨?_, ?_⟩⟩
    · rw [unit, isPlainSum_withCoeff, flat]
    · have insideUnit : e.unit.contains x = true := (contains_withCoeff e 1 x).trans inside
      have singleUnit : e.unit.isProduct = false := (isProduct_withCoeff e 1).trans single
      have again := stripCoefficient_single tidy.unit.formed insideUnit singleUnit
      rw [unit, tidy.formed.coeff_withCoeff] at again
      exact ⟨_, again⟩
  | true =>
    cases e with
    | product c factors =>
      obtain ⟨free, first, _⟩ := mulAll_filter tidy.formed (fun f => !f.contains x) tidy.formed.1
      obtain ⟨bound, second, perm⟩ := mulAll_filter tidy.formed (fun f => f.contains x) one_ne_zero
      have split := stripCoefficient_product tidy.formed inside first second
      have tidyRest : Tidy (ofFactors bound 1) := (tidy.stripCoefficient x _ split).2
      refine ⟨_, _, split, tidyRest, ?_⟩
      have kept : ∀ f ∈ bound, f ∈ factors ∧ f.contains x = true := fun f member =>
        List.mem_filter.mp (perm.mem_iff.mp member)
      cases bound with
      | nil =>
        obtain ⟨f, member, holds⟩ := anyContains_iff.mp inside
        cases perm.mem_iff.mpr (List.mem_filter.mpr ⟨member, holds⟩)
      | cons f others =>
        obtain ⟨stored, holds⟩ := kept f List.mem_cons_self
        cases others with
        | nil =>
          have bounded := size_le_sizeAll stored
          refine .inl ?_
          change (f.withCoeff 1).size < sizeAll factors + 1
          rw [size_withCoeff]
          omega
        | cons g others =>
          have none : (f :: g :: others).filter (fun f => !f.contains x) = [] :=
            List.filter_eq_nil_iff.mpr fun f member => by simp [(kept f member).2]
          have still : (product 1 (f :: g :: others)).contains x = true :=
            anyContains_iff.mpr ⟨f, List.mem_cons_self, holds⟩
          obtain ⟨again, third, _⟩ := mulAll_filter tidyRest.formed (fun f => f.contains x) one_ne_zero
          have last : (product 1 (f :: g :: others)).stripCoefficient x = .ok (ofFactors [] 1, ofFactors again 1) := by
            refine stripCoefficient_product tidyRest.formed still ?_ third
            rw [none]
            rfl
          exact .inr ⟨rfl, _, last⟩
    | _ => cases single

variable {level other deeper : Integrator} {depth : Int}

theorem integrateTerms_congr (each : ∀ t ∈ es, level t x depth = other t x depth) (total : Expr) :
    integrateTerms level x depth total es = integrateTerms other x depth total es := by
  induction es generalizing total with
  | nil => rfl
  | cons t rest ih =>
    have later := fun total => ih (fun u member => each u (List.mem_cons_of_mem _ member)) total
    rw [integrateTerms, integrateTerms, each t List.mem_cons_self]
    refine bind_congr fun part => ?_
    cases part with
    | none => rfl
    | some part => exact bind_congr fun total => later total

/-- One level of integration asks the next one about terms of the integrand only, or about what is left of it
without its coefficient. -/
theorem integrateStep_congr
    (terms : e.isPlainSum = true → ∀ t ∈ e.spreadTerms, level t x depth = other t x depth)
    (rest : e.contains x = true → e.isPlainSum = false → ∀ coefficient rest,
      e.stripCoefficient x = .ok (coefficient, rest) → coefficient.isOne = false →
        level rest x depth = other rest x depth) :
    integrateStep level deeper e x depth = integrateStep other deeper e x depth := by
  unfold integrateStep
  refine bind_congr fun _ => bind_congr fun limit => bind_congr fun below => ?_
  split
  · rfl
  refine bind_congr fun _ => ?_
  split
  next => rfl
  next inside =>
    split
    next plain => exact integrateTerms_congr (terms plain) zero
    next flat =>
      cases split : e.stripCoefficient x with
      | error fault => rfl
      | ok parts =>
        obtain ⟨coefficient, remainder⟩ := parts
        change (if coefficient.isOne then _ else level remainder x depth >>= _) =
          (if coefficient.isOne then _ else other remainder x depth >>= _)
        cases one : coefficient.isOne with
        | true => rfl
        | false => rw [rest (by simpa using inside) (by simpa using flat) _ _ split one]

/-- As many levels as the integrand has nodes, and one more, suffice at one depth. -/
theorem integrateAt_enough {n m : ℕ} (tidy : Tidy e) (enough : e.size + 1 ≤ n) (also : e.size + 1 ≤ m) :
    integrateAt deeper n e x depth = integrateAt deeper m e x depth := by
  induction n generalizing e m with
  | zero => omega
  | succ n ih =>
    obtain ⟨m, rfl⟩ : ∃ k, m = k + 1 := ⟨m - 1, by omega⟩
    refine integrateStep_congr (fun plain t member => ?_) fun inside flat coefficient rest split proper => ?_
    · have smaller := size_lt_of_mem_spreadTerms plain member
      exact ih (tidy.spreadTerms t member) (by omega) (by omega)
    · obtain ⟨_, _, found, tidyRest, descends⟩ := stripCoefficient_descends tidy inside flat
      obtain ⟨rfl, rfl⟩ := Prod.mk.inj (Except.ok.inj (found.symm.trans split))
      rcases descends with smaller | ⟨single, after, last⟩
      · exact ih tidyRest (by omega) (by omega)
      · have positive := e.size_pos
        obtain ⟨n, rfl⟩ : ∃ k, n = k + 1 := ⟨n - 1, by omega⟩
        obtain ⟨m, rfl⟩ : ∃ k, m = k + 1 := ⟨m - 1, by omega⟩
        refine integrateStep_congr (fun plain => ?_) fun _ _ coefficient rest split proper => ?_
        · rw [single] at plain
          cases plain
        · obtain ⟨rfl, -⟩ := Prod.mk.inj (Except.ok.inj (last.symm.trans split))
          cases proper

/-- An integrator has levels enough: with any number above the size of the integrand it answers as it does. -/
theorem integrator_succ (n : ℕ) {levels : ℕ} (tidy : Tidy e) (enough : e.size < levels) :
    integrator (n + 1) e x depth = integrateAt (integrator n) levels e x depth :=
  integrateAt_enough tidy (by omega) enough

end ExactAlgebra.Expr
