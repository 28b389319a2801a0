import ExactAlgebra.Algebra.PartialFractions
import ExactAlgebra.Proofs.PartialFractions
import ExactAlgebra.Proofs.PolynomialTerms
import Mathlib

/-! Adding up partial fractions. The sum has the value of its parts; what is refused is refused because
a key with a part of it cannot be written out. -/
namespace ExactAlgebra.Expr
open ExactAlgebra.Poly (Part)

variable {x : String} {proper : ℚ → Prop} {u v : ℚ → ℚ} {a b e : Expr} {part : Part} {parts : List Part}

/-- A rational function with these values, wherever the unknown is properly chosen. -/
structure IsFunction (x : String) (proper : ℚ → Prop) (v : ℚ → ℚ) (e : Expr) : Prop where
  rational : IsRationalFunction e
  value : ∀ ρ : String → ℚ, proper (ρ x) → Defined ρ e ∧ eval ρ e = v (ρ x)

theorem Represents.isFunction {P : Polynomial ℚ} (represents : Represents (inUnknown x P) e) :
    IsFunction x proper (fun c => P.eval c) e := by
  have poly := represents.expanded.isPolynomial
  exact ⟨poly.isRationalFunction, fun ρ _ => ⟨poly.built.defined, represents.eval_eq ρ⟩⟩

namespace IsFunction

theorem add (functionA : IsFunction x proper u a) (functionB : IsFunction x proper v b) :
    (∃ r, add a b = .ok r ∧ IsFunction x proper (fun c => u c + v c) r) ∨
      Illegible (add a b) hasTermKey (a.summands ++ b.summands) := by
  obtain ⟨⟨formedA, builtA⟩, valueA⟩ := functionA
  obtain ⟨⟨formedB, builtB⟩, valueB⟩ := functionB
  rcases add_outcome a b with ⟨r, returned⟩ | illegible
  · refine .inl ⟨r, returned, ⟨add_wellFormed formedA formedB returned, ?_⟩, fun ρ here => ⟨?_, ?_⟩⟩
    · exact (BuiltBy.keptByAddition Scheme.rational_admitsSums).add formedA formedB builtA builtB returned
    · exact (Defined.keptByAddition ρ).add formedA formedB (valueA ρ here).1 (valueB ρ here).1 returned
    · rw [eval_add formedA formedB builtA builtB returned, (valueA ρ here).2, (valueB ρ here).2]
  · exact .inr illegible

theorem div (functionA : IsFunction x proper u a) (functionB : IsFunction x proper v b)
    (nonzero : ∀ c, proper c → v c ≠ 0) (some : b.isZero = false) (small : ¬ tooLarge b.coeff (-1)) :
    (∃ r, div a b = .ok r ∧ IsFunction x proper (fun c => u c / v c) r) ∨
      Illegible (div a b) hasBaseKey (a.factors ++ b.factors) := by
  obtain ⟨⟨formedA, builtA⟩, valueA⟩ := functionA
  obtain ⟨⟨formedB, builtB⟩, valueB⟩ := functionB
  rcases div_built formedA builtA formedB builtB some (rational_closed rfl) with
    ⟨large, -⟩ | illegible | ⟨r, returned, divides⟩
  · exact absurd large small
  · exact .inr illegible
  · refine .inl ⟨r, returned, ⟨div_wellFormed formedA formedB returned, divides.built⟩, fun ρ here => ?_⟩
    have below : eval ρ b ≠ 0 := by
      rw [(valueB ρ here).2]
      exact nonzero _ here
    refine ⟨divides.defined ρ (valueA ρ here).1 (valueB ρ here).1 below, ?_⟩
    rw [divides.value ρ (valueA ρ here).1 (valueB ρ here).1 below, (valueA ρ here).2, (valueB ρ here).2]

theorem power (function : IsFunction x proper v b) {k : ℕ} (some : b.isZero = false)
    (small : ¬ tooLarge b.coeff k) :
    ∃ r, b.powRat k = .ok r ∧ IsFunction x proper (fun c => v c ^ k) r ∧ r.coeff = b.coeff ^ k ∧
      ∀ f ∈ r.factors, ∃ g ∈ b.factors, f.hasBaseKey = g.hasBaseKey := by
  obtain ⟨⟨formed, built⟩, value⟩ := function
  have whole : (k : ℚ).den = 1 := Rat.den_natCast k
  rcases powRat_built formed built whole (rational_closed whole) with ⟨large, -⟩ | ⟨zero, -⟩ | ⟨r, returned, raises⟩
  · exact absurd large small
  · rw [some] at zero
    cases zero
  · have negative : ¬ (k : ℚ) < 0 := not_lt.mpr (Nat.cast_nonneg k)
    refine ⟨r, returned, ⟨⟨powRat_wellFormed formed returned, raises.built⟩, fun ρ here => ?_⟩, ?_, raises.keyed⟩
    · have defined := (value ρ here).1
      refine ⟨raises.defined ρ defined fun below => absurd below negative, ?_⟩
      rw [raises.value ρ defined fun below => absurd below negative, (value ρ here).2, Rat.num_natCast, zpow_natCast]
    · rw [raises.coeff, Rat.num_natCast, zpow_natCast]

end IsFunction

theorem not_tooLarge_sign {c : ℚ} (sign : c = 1 ∨ c = -1) (p : ℚ) : ¬ tooLarge c p := by
  rintro ⟨large, -⟩
  rcases sign with rfl | rfl
  · exact absurd large (by decide)
  · exact absurd large (by decide)

theorem isZero_of_sign (sign : e.coeff = 1 ∨ e.coeff = -1) : e.isZero = false := by
  cases zero : e.isZero with
  | false => rfl
  | true =>
    obtain rfl := eq_zero_of_isZero zero
    rcases sign with same | same
    · exact absurd same (by decide)
    · exact absurd same (by decide)

/-- The terms of a sum that was merged have keys, and any other sum has the terms of an operand. -/
theorem keyless_of_add {t : Expr} (formedA : a.WellFormed) (formedB : b.WellFormed) (returned : add a b = .ok e)
    (member : t ∈ e.summands) (keyless : t.hasTermKey = false) :
    ∃ s ∈ a.summands ++ b.summands, s.hasTermKey = false := by
  rcases add_cases returned with ⟨_, rfl⟩ | ⟨_, rfl⟩ | ⟨c, d, rfl, rfl, rfl⟩ | ⟨keyed, rfl⟩
  · exact ⟨t, List.mem_append_right _ member, keyless⟩
  · exact ⟨t, List.mem_append_left _ member, keyless⟩
  · obtain rfl := List.mem_singleton.mp member
    cases keyless
  · exfalso
    have collected := collected_summands formedA formedB keyed
    cases zero : (mergeTerms ((a.summands ++ b.summands).map rankTerm)).isZero with
    | true =>
      rw [eq_zero_of_isZero zero] at member
      obtain rfl := List.mem_singleton.mp member
      cases keyless
    | false =>
      obtain ⟨u, inside, rfl⟩ := List.mem_map.mp (summands_ofTerms collected zero ▸ member)
      rw [(collected.proper u (mem_remaining.mp inside).1).keyed] at keyless
      cases keyless

/-- The expression of a numerator over a power of a factor. -/
def fraction? (x : String) (part : Part) : Except Fault Expr := do
  let below ← (← part.2.1.toExpr x).powRat part.2.2
  div (← part.1.toExpr x) below

theorem addFractions_cons (x : String) (result : Expr) (part : Part) (parts : List Part) :
    addFractions x result (part :: parts) =
      if part.1.isZero then addFractions x result parts
      else fraction? x part >>= fun f => result.add f >>= fun sum => addFractions x sum parts := by
  obtain ⟨top, q, k⟩ := part
  rw [addFractions, List.foldlM_cons]
  dsimp only
  split
  · rfl
  · simp only [fraction?, bind_assoc]
    rfl

/-- What cannot be written out of some partial fractions: a degree, the key of a factor above or below
a line, or the key of a term. -/
inductive Unwritable (x : String) (parts : List Part) : Prop
  | degree {part : Part} (member : part ∈ parts)
    (long : Rational.digitBound ≤ part.2.1.toPolynomial.natDegree) : Unwritable x parts
  | factor {part : Part} {top below f : Expr} (member : part ∈ parts) (above : part.1.toExpr x = .ok top)
    (under : part.2.1.toExpr x = .ok below) (inside : f ∈ top.factors ++ below.factors)
    (keyless : f.hasBaseKey = false) : Unwritable x parts
  | term {part : Part} {e t : Expr} (member : part ∈ parts) (written : fraction? x part = .ok e)
    (inside : t ∈ e.summands) (keyless : t.hasTermKey = false) : Unwritable x parts

/-- A numerator over a power of a primitive factor of higher degree, which is not zero where the unknown
is properly chosen. -/
structure IsPart (proper : ℚ → Prop) (part : Part) : Prop where
  primitive : part.2.1.IsPrimitive
  low : part.1.toPolynomial.degree < part.2.1.toPolynomial.degree
  nonzero : ∀ c, proper c → part.2.1.toPolynomial.eval c ≠ 0

noncomputable def partValue (part : Part) (c : ℚ) : ℚ :=
  part.1.toPolynomial.eval c / part.2.1.toPolynomial.eval c ^ part.2.2

section

variable (named : Identifier x) (unknown : isVariableName x = true)
include named unknown

theorem fraction?_outcome (isPart : IsPart proper part) (member : part ∈ parts) :
    (∃ e, fraction? x part = .ok e ∧ IsFunction x proper (partValue part) e) ∨
      (fraction? x part = .error .unsupported ∧ Unwritable x parts) := by
  unfold fraction?
  rcases toExpr_outcome named unknown part.2.1 with ⟨below, writtenBelow, represents⟩ | ⟨refused, long⟩
  · have sign := represents.coeff_eq_or isPart.primitive
    obtain ⟨power, raised, function, coeff, keyed⟩ := 
      (@Represents.isFunction x proper below _ represents).power (isZero_of_sign sign)
        (not_tooLarge_sign sign part.2.2)
    have signPower : power.coeff = 1 ∨ power.coeff = -1 := by
      rw [coeff]
      rcases sign with one | minus
      · exact .inl (by rw [one, one_pow])
      · rw [minus]
        exact neg_one_pow_eq_or ℚ part.2.2
    rw [writtenBelow]
    change (∃ e, (below.powRat part.2.2 >>= fun below => part.1.toExpr x >>= fun top => top.div below) = _ ∧ _) ∨
      (below.powRat part.2.2 >>= fun below => part.1.toExpr x >>= fun top => top.div below) = _ ∧ _
    rw [raised]
    change (∃ e, (part.1.toExpr x >>= fun top => top.div power) = _ ∧ _) ∨
      (part.1.toExpr x >>= fun top => top.div power) = _ ∧ _
    rcases toExpr_outcome named unknown part.1 with ⟨top, writtenTop, representsTop⟩ | ⟨refused, long⟩
    · rw [writtenTop]
      rcases (@Represents.isFunction x proper top _ representsTop).div function
        (fun c here => pow_ne_zero _ (isPart.nonzero c here)) (isZero_of_sign signPower)
        (not_tooLarge_sign signPower _) with ⟨e, divided, value⟩ | ⟨refused, f, inside, keyless⟩
      · exact .inl ⟨e, divided, value⟩
      · refine .inr ⟨refused, ?_⟩
        rcases List.mem_append.mp inside with above | under
        · exact .factor member writtenTop writtenBelow (List.mem_append_left _ above) keyless
        · obtain ⟨g, insideG, same⟩ := keyed f under
          exact .factor member writtenTop writtenBelow (List.mem_append_right _ insideG) (same ▸ keyless)
    · rw [refused]
      exact .inr ⟨rfl, .degree member (long.trans (Polynomial.natDegree_le_natDegree isPart.low.le))⟩
  · rw [refused]
    exact .inr ⟨rfl, .degree member long⟩

/-- The fractions are added to a function, unless something of them cannot be written out. -/
theorem addFractions_outcome {blocked : Prop} (each : ∀ part ∈ parts, IsPart proper part)
    (unwritable : Unwritable x parts → blocked) (function : IsFunction x proper v e)
    (keyless : ∀ t ∈ e.summands, t.hasTermKey = false → blocked) :
    (∃ r, addFractions x e parts = .ok r ∧
      IsFunction x proper (fun c => v c + (parts.map fun part => partValue part c).sum) r) ∨
    (addFractions x e parts = .error .unsupported ∧ blocked) := by
  suffices loop : ∀ rest, (∀ part ∈ rest, part ∈ parts) → ∀ {v e}, IsFunction x proper v e →
      (∀ t ∈ e.summands, t.hasTermKey = false → blocked) →
      (∃ r, addFractions x e rest = .ok r ∧
        IsFunction x proper (fun c => v c + (rest.map fun part => partValue part c).sum) r) ∨
      (addFractions x e rest = .error .unsupported ∧ blocked) from
    loop parts (fun _ => id) function keyless
  intro rest
  induction rest with
  | nil =>
    intro _ v e function _
    exact .inl ⟨e, rfl, by simpa using function⟩
  | cons part rest ih =>
    intro inside v e function keyless
    have member := inside part List.mem_cons_self
    have later : ∀ part ∈ rest, part ∈ parts := fun other here => inside other (List.mem_cons_of_mem _ here)
    rw [addFractions_cons]
    split
    next zero =>
      have none (c : ℚ) : partValue part c = 0 := by
        rw [partValue, (Poly.isZero_iff part.1).mp zero, Polynomial.eval_zero, zero_div]
      simpa [none] using ih later function keyless
    next =>
      rcases fraction?_outcome named unknown (each part member) member with
        ⟨f, written, functionF⟩ | ⟨refused, long⟩
      · rw [written]
        change (∃ r, (e.add f >>= fun sum => addFractions x sum rest) = _ ∧ _) ∨
          (e.add f >>= fun sum => addFractions x sum rest) = _ ∧ _
        have keylessBoth : ∀ t ∈ e.summands ++ f.summands, t.hasTermKey = false → blocked := by
          intro t here none
          rcases List.mem_append.mp here with old | new
          · exact keyless t old none
          · exact unwritable (.term member written new none)
        rcases function.add functionF with ⟨sum, added, functionSum⟩ | ⟨refused, t, here, none⟩
        · rw [added]
          have step := ih later functionSum fun t here none => by
            obtain ⟨s, old, noneS⟩ := keyless_of_add function.rational.formed functionF.rational.formed added here none
            exact keylessBoth s old noneS
          simp only [add_assoc] at step
          simp only [List.map_cons, List.sum_cons]
          exact step
        · rw [refused]
          exact .inr ⟨rfl, keylessBoth t here none⟩
      · rw [refused]
        exact .inr ⟨rfl, unwritable long⟩

end

end ExactAlgebra.Expr
