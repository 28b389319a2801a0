import ExactAlgebra.Proofs.ProductFactors
import Mathlib

/-! Fractions without fractions inside. Where no negative power stands inside the base of a negative power,
expansion leads to terms whose factors are powers of names and of polynomials. -/
namespace ExactAlgebra.Expr
open Engine

variable {a b e r t : Expr}

/-- No negative power stands inside the base of a negative power. -/
inductive Unnested : Expr → Prop
  | number (c : ℚ) : Unnested (number c)
  | symbol (c : ℚ) (name : String) (p : ℚ) : Unnested (symbol c name p)
  | sum {c : ℚ} {terms : List Expr} {p : ℚ} (each : ∀ t ∈ terms, Unnested t)
    (base : p < 0 → ∀ t ∈ terms, BuiltBy .polynomial t) : Unnested (sum c terms p)
  | product {c : ℚ} {factors : List Expr} (each : ∀ f ∈ factors, Unnested f) : Unnested (product c factors)

/-- A product of whole powers of names and of polynomials. -/
inductive FlatTerm : Expr → Prop
  | number (c : ℚ) : FlatTerm (number c)
  | symbol {c : ℚ} {name : String} {p : ℚ} (unknown : isVariableName name = true) (whole : p.den = 1) :
    FlatTerm (symbol c name p)
  | sum {c : ℚ} {terms : List Expr} {p : ℚ} (each : ∀ t ∈ terms, BuiltBy .polynomial t) (whole : p.den = 1) :
    FlatTerm (sum c terms p)
  | product {c : ℚ} {factors : List Expr} (each : ∀ f ∈ factors, FlatTerm f) : FlatTerm (product c factors)

theorem BuiltBy.flatTerm (built : BuiltBy .polynomial e) : FlatTerm e := by
  induction built with
  | number c => exact .number c
  | symbol unknown power => exact .symbol unknown power.1
  | sum each _ power => exact .sum each power.1
  | product _ ih => exact .product ih

namespace FlatTerm

theorem rational (flat : FlatTerm e) : BuiltBy .rational e := by
  induction flat with
  | number c => exact .number c
  | symbol unknown whole => exact .symbol unknown whole
  | sum each whole => exact .sum (fun t member => (each t member).rational) (fun _ _ => trivial) whole
  | product _ ih => exact .product ih

theorem withCoeff (flat : FlatTerm e) (c : ℚ) : FlatTerm (e.withCoeff c) := by
  cases flat with
  | number => exact .number c
  | symbol unknown whole => exact .symbol unknown whole
  | sum each whole => exact .sum each whole
  | product each => exact .product each

theorem withPower (flat : FlatTerm e) {p : ℚ} (whole : p.den = 1) : FlatTerm (e.withPower p) := by
  cases flat with
  | number c => exact .number c
  | symbol unknown _ => exact .symbol unknown whole
  | sum each _ => exact .sum each whole
  | product each => exact .product each

/-- A factor of a positive power is a polynomial. -/
theorem polynomial (flat : FlatTerm e) (factor : IsFactor e) (positive : 0 < e.power) : BuiltBy .polynomial e := by
  cases flat with
  | number => exact absurd factor.notNumber (by simp [isNumber])
  | symbol unknown whole => exact .symbol unknown ⟨whole, positive⟩
  | sum each whole => exact .sum each (fun _ _ => trivial) ⟨whole, positive⟩
  | product => exact absurd factor.notProduct (by simp [isProduct])

theorem keptByProducts : KeptByProducts FlatTerm where
  number := .number
  withCoeff flat c := flat.withCoeff c
  product := .product
  each flat := by
    cases flat with
    | product each => exact each

end FlatTerm

/-- Products of such terms. Their values are those of the rational functions. -/
def flatKind : Kind (String → ℚ) ℚ where
  kept := FlatTerm
  stops f := f.hasBaseKey = false
  defined := Defined
  value := eval

theorem lawful_flatKind : flatKind.Lawful where
  kept := FlatTerm.keptByProducts
  defined := Defined.keptByProducts
  adds := addsUp_eval
  product := (Kind.lawful_ofScheme .rational).product
  keyless _ keyless := keyless
  alike n g f factorG factorF same := by
    have plainG : PlainFactor .rational g := ⟨factorG.formed, factorG.proper, FlatTerm.rational factorG.kept⟩
    have plainF : PlainFactor .rational f := ⟨factorF.formed, factorF.proper, FlatTerm.rational factorF.kept⟩
    have combines := combines_mergedPower plainF plainG same
    refine .inr ⟨_, mergeAlike_plain n plainF plainG, combines.coeff, combines.few, fun h member => ?_,
      combines.stops, combines.defined, combines.value⟩
    refine ⟨(combines.factor h member).formed, (combines.factor h member).proper, ?_⟩
    rw [(mergedFactors_mergedPower plainF plainG).2] at member
    split at member
    · cases member
    next total =>
      rw [List.mem_singleton.mp member]
      exact FlatTerm.withPower factorG.kept (Scheme.rational.add _ _ plainG.powers plainF.powers total)

namespace FlatTerm

theorem mul (flatA : FlatTerm a) (flatB : FlatTerm b) (formedA : a.WellFormed) (formedB : b.WellFormed)
    (returned : mul a b = .ok r) : FlatTerm r := by
  rcases lawful_flatKind.mul formedA formedB flatA flatB with ⟨failed, -⟩ | ⟨s, same, multiplies⟩
  · cases failed.symm.trans returned
  · cases same.symm.trans returned
    exact multiplies.kept

theorem powRat (flat : FlatTerm a) (formed : a.WellFormed) {p : ℚ} (whole : p.den = 1) (present : p ≠ 0)
    (returned : a.powRat p = .ok r) : FlatTerm r := by
  by_cases one : p = 1
  · rw [one, powRat_one] at returned
    cases returned
    exact flat
  have factors := factors_of_powRat formed flat.rational whole present one (rational_closed whole) returned
  refine keptByProducts.of_factors fun h member => ?_
  obtain ⟨f, inside, rfl⟩ := List.mem_map.mp (factors.mem_iff.mp member)
  have plain := plainFactor_factors formed flat.rational f inside
  exact (keptByProducts.factors flat f inside).withPower (mul_num plain.powers whole).2

end FlatTerm

inductive Flat : Expr → Prop
  | term {t : Expr} (term : FlatTerm t) : Flat t
  | sum {c : ℚ} {terms : List Expr} (each : ∀ t ∈ terms, Flat t) : Flat (sum c terms 1)

namespace Flat

theorem number (c : ℚ) : Flat (number c) := .term (.number c)

theorem terms {c p : ℚ} {terms : List Expr} (flat : Flat (Expr.sum c terms p)) : ∀ t ∈ terms, Flat t := by
  cases flat with
  | term term =>
    cases term with
    | sum each _ => exact fun t member => .term (each t member).flatTerm
  | sum each => exact each

theorem withCoeff (flat : Flat e) (c : ℚ) : Flat (e.withCoeff c) := by
  cases flat with
  | term term => exact .term (term.withCoeff c)
  | sum each => exact .sum each

theorem scale (flat : Flat e) (c : ℚ) : Flat (e.scale c) := by
  unfold Expr.scale
  split
  · exact .number 0
  · exact flat.withCoeff _

theorem flatTerm (flat : Flat t) (single : t.isPlainSum = false) : FlatTerm t := by
  cases flat with
  | term term => exact term
  | sum => cases single

theorem keptByAddition : KeptByAddition Flat where
  number := number
  withCoeff flat c := flat.withCoeff c
  sum each _ := .sum each
  terms flat := flat.terms

end Flat

structure IsFlat (e : Expr) : Prop where
  formed : e.WellFormed
  flat : Flat e

namespace IsFlat

theorem number (c : ℚ) : IsFlat (number c) := ⟨trivial, .number c⟩

theorem scale (flat : IsFlat e) (c : ℚ) : IsFlat (e.scale c) := ⟨flat.formed.scale c, flat.flat.scale c⟩

theorem add (flatA : IsFlat a) (flatB : IsFlat b) (returned : add a b = .ok r) : IsFlat r :=
  ⟨add_wellFormed flatA.formed flatB.formed returned,
    Flat.keptByAddition.add flatA.formed flatB.formed flatA.flat flatB.flat returned⟩

/-- The terms over which a product is distributed. -/
theorem terms (flat : IsFlat e) : ∀ t ∈ e.terms, t.WellFormed ∧ FlatTerm t := by
  intro t member
  obtain ⟨formed, single⟩ := flat.formed.terms t member
  exact ⟨formed, (forall_terms Flat.terms flat.flat t member).flatTerm single⟩

/-- The terms of an expanded expression are products of powers of names and of polynomials. -/
theorem summands (flat : IsFlat e) : ∀ t ∈ e.summands, t.WellFormed ∧ FlatTerm t := by
  intro t member
  cases plain : e.isPlainSum with
  | false =>
    obtain rfl := List.mem_singleton.mp (summands_flat plain ▸ member)
    exact ⟨flat.formed, flat.flat.flatTerm plain⟩
  | true =>
    refine ⟨flat.formed.summand member, ?_⟩
    cases e with
    | sum c terms p =>
      obtain rfl : p = 1 := by simpa [isPlainSum] using plain
      rw [summands_plain] at member
      obtain ⟨u, inside, rfl⟩ := List.mem_map.mp member
      exact ((flat.flat.terms u inside).flatTerm (flat.formed.2.2.1.flat u inside)).withCoeff _
    | _ => cases plain

variable {context : Context}

theorem returns_distribute (flatA : IsFlat a) (flatB : IsFlat b) : Returns context (distribute a b) IsFlat := by
  unfold distribute
  refine Meets.bind IsFlat (Meets.foldlM (number 0) fun total flat x left => ?_) fun total flat =>
    Meets.pure (flat.scale _)
  refine Meets.foldlM flat fun total flat y right => ?_
  refine Meets.bind _ (Meets.anyway _) fun _ _ => ?_
  obtain ⟨formedX, termX⟩ := flatA.terms x left
  obtain ⟨formedY, termY⟩ := flatB.terms y right
  refine Meets.bind IsFlat (Returns.lift fun product multiplied => ?_)
    fun product flatProduct => Returns.lift fun next added => flat.add flatProduct added
  exact ⟨mul_wellFormed formedX formedY multiplied, .term (termX.mul termY formedX formedY multiplied)⟩

theorem returns_distributeTimes (flatA : IsFlat a) (flatB : IsFlat b) (n : ℕ) :
    Returns context (distributeTimes a b n) IsFlat := by
  induction n generalizing a with
  | zero => exact Meets.pure flatA
  | succ n ih => exact Meets.bind _ (flatA.returns_distribute flatB) fun r flat => ih flat

end IsFlat

variable {context : Context}

/-- Where no fractions are nested, expansion leads to a sum of products of powers of names and of
polynomials. -/
theorem returns_expandTree_flat (rational : IsRationalFunction e) (unnested : Unnested e) :
    Returns context (expandTree e) IsFlat := by
  induction e using Expr.induction with
  | number c => exact Meets.pure (.number c)
  | symbol c name p =>
    refine Meets.pure ⟨rational.formed, .term ?_⟩
    cases rational.built with
    | symbol unknown whole => exact .symbol unknown whole
  | call | exponential | foreign => cases rational.built
  | sum c terms p ih =>
    obtain ⟨formed, built⟩ := rational
    have formedTerms := allWellFormed_iff.mp formed.2.2.2
    cases built with
    | sum each _ power =>
      cases unnested with
      | sum below base =>
        rw [expandTree, expandSum_eq]
        rcases lt_or_gt_of_ne formed.2.1 with negative | positive
        · -- The base is a polynomial, and so is what it expands to.
          have inner : Returns context (terms.foldlM (fun total t => do add total (← expandTree t)) zero) Expanded := by
            refine Meets.foldlM (expanded_number 0) fun total expanded t member => ?_
            refine Meets.bind _ ((meets_expandTree ⟨formedTerms t member, base negative t member⟩ le_rfl).accept
              fun _ _ => trivial) fun u represents => ?_
            exact Returns.lift fun r added => expanded.add represents.expanded added
          refine Meets.bind _ inner fun total expanded => ?_
          have polynomial := expanded.isPolynomial
          refine Meets.bind IsFlat ?_ fun raised flat => Meets.pure (flat.scale c)
          unfold expandPower
          rw [if_neg (by linarith), if_neg (by simp [negative.le])]
          refine Returns.lift fun r returned => ⟨powRat_wellFormed polynomial.formed returned, .term ?_⟩
          exact polynomial.built.flatTerm.powRat polynomial.formed power formed.2.1 returned
        · have inner : Returns context (terms.foldlM (fun total t => do add total (← expandTree t)) zero) IsFlat := by
            refine Meets.foldlM (.number 0) fun total flat t member => ?_
            exact Meets.bind _ (ih t member ⟨formedTerms t member, each t member⟩ (below t member)) fun u expanded =>
              Returns.lift fun r added => flat.add expanded added
          refine Meets.bind _ inner fun total flat => ?_
          refine Meets.bind IsFlat ?_ fun raised flat => Meets.pure (flat.scale c)
          unfold expandPower
          split
          · exact Meets.pure flat
          · rw [if_pos (by simp [Rational.isInteger, show p.den = 1 from power, positive])]
            exact flat.returns_distributeTimes flat _
  | product c factors ih =>
    obtain ⟨formed, built⟩ := rational
    cases built with
    | product each =>
      cases unnested with
      | product below =>
        rw [expandTree_product]
        refine Meets.foldlM (.number c) fun result flat f member => ?_
        have inside := (sortFactors_perm factors).mem_iff.mp member
        exact Meets.bind _ (ih f inside ⟨allWellFormed_iff.mp formed.2.2 f inside, each f inside⟩ (below f inside))
          fun g expanded => flat.returns_distribute expanded

theorem returns_expand_flat (rational : IsRationalFunction e) (unnested : Unnested e) :
    Returns context (expand e) IsFlat :=
  Meets.bind _ (Meets.anyway _) fun _ _ => Meets.inScope (returns_expandTree_flat rational unnested)

end ExactAlgebra.Expr
