import ExactAlgebra.Proofs.MultiplicationValue
import ExactAlgebra.Proofs.RealValue
import Mathlib

/-! Sums and products of smooth expressions. They stand for the sum and the product of the real numbers that
the operands stand for; like powers are merged, those of `e` by adding their exponents. Only a key that cannot
be written out stops them. -/
namespace ExactAlgebra.Expr

variable {ρ : String → ℝ} {a b e f g r : Expr}

theorem Smooth.keptByAddition : KeptByAddition Smooth where
  number := .number
  withCoeff smooth c := smooth.withCoeff c
  sum each _ := .sum each rfl
  terms := Smooth.terms

theorem NoPole.withCoeff (regular : NoPole ρ e) (c : ℚ) : NoPole ρ (e.withCoeff c) := by
  cases regular with
  | number => exact .number c
  | symbol nonzero => exact .symbol nonzero
  | call each nonzero => exact .call each nonzero
  | sum each nonzero => exact .sum each nonzero
  | product each => exact .product each
  | exponential base exponent => exact .exponential base exponent

theorem NoPole.keptByAddition (ρ : String → ℝ) : KeptByAddition (NoPole ρ) where
  number := .number
  withCoeff regular c := regular.withCoeff c
  sum each _ := .sum each fun negative => absurd negative (by decide)
  terms regular := by
    cases regular with
    | sum each => exact each

theorem realValue_add (formedA : a.WellFormed) (formedB : b.WellFormed) (smoothA : Smooth a)
    (smoothB : Smooth b) (returned : add a b = .ok r) :
    realValue ρ r = realValue ρ a + realValue ρ b := by
  refine (addsUp_realValue ρ).add Smooth Smooth.withCoeff Smooth.terms ?_ formedA formedB smoothA smoothB
    returned
  intro t u termT termU smoothT smoothU keys
  have flat {t : Expr} (term : IsTerm t) : t.unit.isPlainSum = false := by
    rw [unit, isPlainSum_withCoeff, term.flat]
  have values := @realValue_unit_eq_of_termKey_eq ρ _ _ termT.formed termU.formed (smoothT.withCoeff 1)
    (smoothU.withCoeff 1) (flat termT) (flat termU) keys
  rwa [unit_unit, unit_unit] at values

/-- Some term of the expression has a key that cannot be written out. -/
def HasLongTerm (e : Expr) : Prop := ∃ t ∈ e.summands, t.hasTermKey = false

/-- Coefficients are not written in keys. -/
theorem HasLongTerm.of_withCoeff {c : ℚ} (long : HasLongTerm (e.withCoeff c)) : HasLongTerm e := by
  obtain ⟨t, member, keyless⟩ := long
  cases flat : e.isPlainSum with
  | false =>
    rw [summands_flat (by rwa [isPlainSum_withCoeff])] at member
    obtain rfl := List.mem_singleton.mp member
    rw [hasTermKey_withCoeff] at keyless
    exact ⟨e, by rw [summands_flat flat]; exact List.mem_singleton_self e, keyless⟩
  | true =>
    cases e with
    | sum d terms p =>
      obtain rfl : p = 1 := by simpa [isPlainSum] using flat
      rw [Expr.withCoeff, summands, if_pos rfl] at member
      obtain ⟨u, inside, rfl⟩ := List.mem_map.mp member
      rw [hasTermKey_withCoeff] at keyless
      refine ⟨u.withCoeff (u.coeff * d), ?_, by rwa [hasTermKey_withCoeff]⟩
      rw [summands, if_pos rfl]
      exact List.mem_map_of_mem inside
    | _ => cases flat

theorem HasLongTerm.of_scale {c : ℚ} (long : HasLongTerm (e.scale c)) : HasLongTerm e := by
  unfold Expr.scale at long
  split at long
  · obtain ⟨t, member, keyless⟩ := long
    obtain rfl := List.mem_singleton.mp member
    cases keyless
  · exact long.of_withCoeff

/-- Merged terms have keys that can be written out. -/
theorem keyed_ofTerms {terms : List RankedTerm} (collected : Collected terms) :
    ∀ t ∈ (ofTerms terms).summands, t.hasTermKey = true := by
  intro t member
  rcases ofTerms_cases collected with ⟨_, same⟩ | ⟨u, left, same⟩ | ⟨c, _, same, normal⟩
  · rw [same] at member
    obtain rfl := List.mem_singleton.mp member
    rfl
  · have inside : u ∈ remaining terms := left ▸ List.mem_cons_self
    have proper := collected.proper u (mem_remaining.mp inside).1
    rw [same, summands_flat proper.flat] at member
    obtain rfl := List.mem_singleton.mp member
    exact proper.keyed
  · rw [same, summands, if_pos rfl] at member
    obtain ⟨u, inside, rfl⟩ := List.mem_map.mp member
    rw [hasTermKey_withCoeff]
    exact normal.keyed u inside

/-- Addition makes no new keys. -/
theorem HasLongTerm.of_add (formedA : a.WellFormed) (formedB : b.WellFormed) (returned : add a b = .ok r)
    (long : HasLongTerm r) : HasLongTerm a ∨ HasLongTerm b := by
  obtain ⟨t, member, keyless⟩ := long
  rcases add_cases returned with ⟨_, rfl⟩ | ⟨_, rfl⟩ | ⟨x, y, rfl, rfl, rfl⟩ | ⟨keyed, rfl⟩
  · exact .inr ⟨t, member, keyless⟩
  · exact .inl ⟨t, member, keyless⟩
  · obtain rfl := List.mem_singleton.mp member
    cases keyless
  · cases (keyed_ofTerms (collected_summands formedA formedB keyed) t member).symm.trans keyless

structure AddsSmooth (a b r : Expr) : Prop where
  formed : r.WellFormed
  smooth : Smooth r
  long : HasLongTerm r → HasLongTerm a ∨ HasLongTerm b
  regular : ∀ ρ, NoPole ρ a → NoPole ρ b → NoPole ρ r
  value : ∀ ρ, realValue ρ r = realValue ρ a + realValue ρ b

/-- A sum is returned, or the key of a term cannot be written out. -/
theorem add_smooth (formedA : a.WellFormed) (formedB : b.WellFormed) (smoothA : Smooth a)
    (smoothB : Smooth b) :
    (add a b = .error .unsupported ∧ (HasLongTerm a ∨ HasLongTerm b)) ∨
      ∃ r, add a b = .ok r ∧ AddsSmooth a b r := by
  rcases add_outcome a b with ⟨r, returned⟩ | ⟨failed, t, member, keyless⟩
  · refine .inr ⟨r, returned, add_wellFormed formedA formedB returned,
      Smooth.keptByAddition.add formedA formedB smoothA smoothB returned,
      HasLongTerm.of_add formedA formedB returned,
      fun ρ regularA regularB => (NoPole.keptByAddition ρ).add formedA formedB regularA regularB returned,
      fun ρ => realValue_add formedA formedB smoothA smoothB returned⟩
  · refine .inl ⟨failed, ?_⟩
    rcases List.mem_append.mp member with left | right
    · exact .inl ⟨t, left, keyless⟩
    · exact .inr ⟨t, right, keyless⟩

namespace SmoothFactor

theorem withPower (factor : SmoothFactor f) {p : ℚ} (whole : p.den = 1) (nonzero : p ≠ 0) :
    SmoothFactor (f.withPower p) := by
  obtain ⟨formed, proper, smooth⟩ := factor
  cases smooth with
  | number => cases proper.notNumber
  | product => cases proper.notProduct
  | unknown named =>
    obtain ⟨digits, imaginary⟩ := isVariableName_eq named
    refine ⟨⟨formed.1, nonzero, formed.2.2.1, fun same => ?_, fun same => ?_⟩, ⟨proper.unit, rfl, rfl⟩,
      .unknown named whole⟩
    · rw [digits] at same
      cases same
    · rw [same] at imaginary
      cases imaginary
  | powerOfE =>
    exact ⟨⟨formed.1, nonzero, formed.2.2.1, fun same => absurd same (by decide), fun same => absurd same (by decide)⟩,
      ⟨proper.unit, rfl, rfl⟩, .powerOfE _ _⟩
  | circular named inner => exact ⟨⟨formed.1, nonzero, formed.2.2⟩, ⟨proper.unit, rfl, rfl⟩, .circular named inner whole⟩
  | sum each => exact ⟨⟨formed.1, nonzero, formed.2.2⟩, ⟨proper.unit, rfl, rfl⟩, .sum each whole⟩
  | exponential inner => exact ⟨formed, proper, .exponential inner⟩

/-- A number as the power of a base. -/
theorem powWithin_withPower (factor : SmoothFactor f) (plain : f.isExponential = false) (n : Nat) (p : ℚ) :
    powWithin (n + 3) (f.withPower 1) (number p) = .ok (if p = 0 then one else f.withPower p) := by
  obtain ⟨formed, proper, smooth⟩ := factor
  -- The number in front is one, and so is every power of it.
  have finish (e : Expr) (some : e.isZero = false) : mulWithin (n + 1) (number 1) e = .ok e := by
    rw [mulWithin_number n one_ne_zero some, scale_one]
  have raise {base : Expr} (some : base.isZero = false)
      (other : p ≠ 0 → p ≠ 1 → powRatWithin (n + 2) base p = .ok (f.withPower p))
      (same : base = f.withPower 1) :
      powWithin (n + 3) base (number p) = .ok (if p = 0 then one else f.withPower p) := by
    rw [powWithin]
    by_cases zero : p = 0
    · unfold powRatWithin
      rw [if_pos zero, if_pos zero, some, if_neg (by decide)]
    by_cases one : p = 1
    · unfold powRatWithin
      rw [if_neg zero, if_pos one, if_neg zero, same, one]
    · rw [other zero one, if_neg zero]
  cases smooth with
  | number => cases proper.notNumber
  | product => cases proper.notProduct
  | exponential => cases plain
  | @unknown c name q named whole =>
    obtain rfl : c = 1 := proper.unit
    obtain ⟨digits, imaginary⟩ := isVariableName_eq named
    refine raise rfl (fun zero one => ?_) rfl
    change powRatWithin (n + 2) (symbol 1 name 1) p = .ok (symbol 1 name p)
    unfold powRatWithin
    rw [if_neg zero, if_neg one]
    simp only [powNumber_one, digits, imaginary, zero, one_mul, Bool.false_eq_true, Bool.false_and, if_false]
    exact finish (symbol 1 name p) rfl
  | powerOfE c q =>
    obtain rfl : c = 1 := proper.unit
    have digits : isIntegerText "e" = false := by decide
    have imaginary : ("e" == "i") = false := by decide
    refine raise rfl (fun zero one => ?_) rfl
    change powRatWithin (n + 2) (symbol 1 "e" 1) p = .ok (symbol 1 "e" p)
    unfold powRatWithin
    rw [if_neg zero, if_neg one]
    simp only [powNumber_one, digits, imaginary, zero, one_mul, Bool.false_eq_true, Bool.false_and, if_false]
    exact finish (symbol 1 "e" p) rfl
  | @circular c name u q named inner whole =>
    obtain rfl : c = 1 := proper.unit
    refine raise rfl (fun zero one => ?_) rfl
    change powRatWithin (n + 2) (call 1 name [u] 1) p = .ok (call 1 name [u] p)
    unfold powRatWithin
    rw [if_neg zero, if_neg one]
    simp only [Expr.coeff, Expr.power, powNumber_one, zero, one_mul, if_false]
    exact finish (call 1 name [u] p) rfl
  | @sum c terms q each whole =>
    obtain rfl : c = 1 := proper.unit
    refine raise rfl (fun zero one => ?_) rfl
    change powRatWithin (n + 2) (sum 1 terms 1) p = .ok (sum 1 terms p)
    unfold powRatWithin
    rw [if_neg zero, if_neg one]
    simp only [Expr.coeff, Expr.power, powNumber_one, zero, one_mul, if_false]
    exact finish (sum 1 terms p) rfl

end SmoothFactor

/-- A whole power of an unknown, of a sine or cosine, or of a sum. -/
structure WholePower (f : Expr) : Prop where
  factor : SmoothFactor f
  plain : f.isExponential = false
  whole : f.power.den = 1
  power : ∀ p, (f.withPower p).power = p
  base : baseOf f = f.withPower 1
  proper : f.withPower 1 ≠ bare "e"
  key : f.baseKey = (f.withPower 1).face.guarded
  exponent : ∀ p, exponentOf (f.withPower p) = number p
  regular : ∀ ρ, NoPole ρ f → ∀ p, (p < 0 → realValue ρ (f.withPower 1) ≠ 0) → NoPole ρ (f.withPower p)
  nonzero : ∀ ρ, NoPole ρ f → f.power < 0 → realValue ρ (f.withPower 1) ≠ 0
  value : ∀ ρ p, realValue ρ (f.withPower p) = realValue ρ (f.withPower 1) ^ p.num

structure PowerOfE (f : Expr) : Prop where
  factor : SmoothFactor f
  base : baseOf f = bare "e"
  key : f.baseKey = "e"
  formed : (exponentOf f).WellFormed
  smooth : Smooth (exponentOf f)
  regular : ∀ ρ, NoPole ρ f → NoPole ρ (exponentOf f)
  value : ∀ ρ, realValue ρ f = Real.exp (realValue ρ (exponentOf f))

/-- What a smooth factor is. -/
theorem SmoothFactor.cases (factor : SmoothFactor f) : WholePower f ∨ PowerOfE f := by
  have ⟨formed, proper, smooth⟩ := factor
  cases smooth with
  | number => cases proper.notNumber
  | product => cases proper.notProduct
  | @unknown c name p named whole =>
    obtain rfl : c = 1 := proper.unit
    have other := isVariableName_ne_e named
    refine .inl ⟨factor, rfl, whole, fun _ => rfl, ?_, ?_, rfl, fun _ => rfl, fun ρ _ q nonzero => .symbol nonzero,
      fun ρ regular => ?_, fun ρ q => ?_⟩
    · simp only [baseOf, (isVariableName_eq named).1, Bool.false_eq_true, if_false]
      rfl
    · exact fun same => other (symbol.inj same).2.1
    · cases regular with
      | symbol nonzero => exact nonzero
    · simp [Expr.withPower, realValue, other]
  | powerOfE c p =>
    obtain rfl : c = 1 := proper.unit
    have digits : isIntegerText "e" = false := by decide
    have base : baseOf (symbol 1 "e" p) = bare "e" := by
      simp only [baseOf, digits, Bool.false_eq_true, if_false]
      rfl
    exact .inr ⟨factor, base, guarded_identifier (by decide) 1 p, trivial, .number p, fun ρ _ => .number p,
      fun ρ => by simp [realValue, exponentOf, power]⟩
  | @circular c name u p named inner whole =>
    obtain rfl : c = 1 := proper.unit
    refine .inl ⟨factor, rfl, whole, fun _ => rfl, rfl, by rintro ⟨⟩, rfl, fun _ => rfl,
      fun ρ regular q nonzero => ?_,
      fun ρ regular => ?_, fun ρ q => by simp [Expr.withPower, realValue]⟩
    · cases regular with
      | call each => exact .call each nonzero
    · cases regular with
      | call _ nonzero => exact nonzero
  | @sum c terms p each whole =>
    obtain rfl : c = 1 := proper.unit
    refine .inl ⟨factor, rfl, whole, fun _ => rfl, rfl, by rintro ⟨⟩, ?_, fun _ => rfl,
      fun ρ regular q nonzero => ?_,
      fun ρ regular => ?_, fun ρ q => by simp [Expr.withPower, realValue]⟩
    · rw [baseKey, (layout_sum 1 terms p).2.1, (layout_sum 1 terms p).1, Expr.withPower, (layout_sum 1 terms 1).1]
    · cases regular with
      | sum each => exact .sum each nonzero
    · cases regular with
      | sum _ nonzero => exact nonzero
  | @exponential c u inner =>
    obtain rfl : c = 1 := proper.unit
    refine .inr ⟨factor, rfl, ?_, formed.2.2.2, inner, fun ρ regular => ?_, fun ρ => ?_⟩
    · have key : (exponential 1 (bare "e") u).baseKey = (bare "e").face.guarded := by
        simp [baseKey, face, bare, coeff, singleFace]
      rw [key]
      exact guarded_identifier (by decide) 1 1
    · cases regular with
      | exponential _ exponent => exact exponent
    · rw [realValue_exponential, Rat.cast_one, one_mul]
      rfl

theorem smoothFactor_bare_e : SmoothFactor (bare "e") :=
  ⟨wellFormed_bare (by decide) (by decide), ⟨rfl, rfl, rfl⟩, .powerOfE 1 1⟩

theorem SmoothFactor.baseOf (factor : SmoothFactor f) : SmoothFactor (Expr.baseOf f) := by
  rcases factor.cases with whole | power
  · rw [whole.base]
    exact factor.withPower rfl one_ne_zero
  · rw [power.base]
    exact smoothFactor_bare_e

/-- The key of a factor is the text of its base. -/
theorem SmoothFactor.side_baseOf (factor : SmoothFactor f) :
    (Expr.baseOf f).factorSide (Expr.baseOf f).face = (true, f.baseKey) := by
  rcases factor.cases with whole | power
  · have plain : (f.withPower 1).isExponential = false := by
      have plain := whole.plain
      cases f with
      | exponential => cases plain
      | _ => rfl
    rw [whole.base, whole.key]
    unfold factorSide
    split
    next shape =>
      rw [shape] at plain
      cases plain
    · rw [whole.power, if_neg (by decide), poweredText, if_pos rfl]
  · rw [power.base, power.key]
    decide +kernel

theorem SmoothFactor.sideTells (factor : SmoothFactor f) : SideTells f := by
  have tells := (factor.smooth.tells factor.formed).1 factor.proper.notNumber factor.proper.notProduct
  rwa [unit_of_coeff factor.proper.unit] at tells

/-- A power of `e` is not alike to another power. -/
theorem WholePower.key_ne (whole : WholePower f) (power : PowerOfE g) : f.baseKey ≠ g.baseKey := by
  intro same
  have base := whole.factor.baseOf
  have side := whole.factor.side_baseOf
  have named : Identifier "e" := by decide
  rw [whole.base] at base side
  have shown : poweredText "e" "e" 1 = "e" := if_pos rfl
  obtain ⟨c, name, p, shape⟩ := base.isSymbol named one_pos
    ((congrArg Prod.snd side).trans (same.trans (power.key.trans shown.symm)))
  have one := whole.power 1
  have proper := whole.proper
  rw [shape] at base side one proper
  obtain rfl : p = 1 := one
  obtain rfl : c = 1 := base.proper.unit
  rw [side_symbol base.identifier, abs_one, same, power.key, ← shown] at side
  exact proper (congrArg bare (poweredText_name_inj base.identifier named one_pos one_pos
    (Prod.mk.inj side).2).1)

/-- Like factors are powers of bases of the same value, or of `e`. -/
theorem alike_cases (factorF : SmoothFactor f) (factorG : SmoothFactor g) (same : f.baseKey = g.baseKey) :
    (WholePower f ∧ WholePower g ∧ ∀ ρ, realValue ρ (f.withPower 1) = realValue ρ (g.withPower 1)) ∨
      (PowerOfE f ∧ PowerOfE g) := by
  rcases factorF.cases with wholeF | powerF <;> rcases factorG.cases with wholeG | powerG
  · refine .inl ⟨wholeF, wholeG, ?_⟩
    have values := factorF.baseOf.sideTells _ factorG.baseOf
      (by rw [factorF.side_baseOf, factorG.side_baseOf, same])
    rwa [wholeF.base, wholeG.base] at values
  · exact absurd same (wholeF.key_ne powerG)
  · exact absurd same.symm (wholeG.key_ne powerF)
  · exact .inr ⟨powerF, powerG⟩

theorem SmoothFactor.mergedFactors (factor : SmoothFactor f) : Expr.mergedFactors f = [f] := by
  have ⟨_, proper, smooth⟩ := factor
  have unit := unit_of_coeff proper.unit
  cases smooth with
  | number => cases proper.notNumber
  | product => cases proper.notProduct
  | _ => exact congrArg (fun e => [e]) unit

/-- Something in the factor is too long to be written out: its key, or that of a term of its exponent. -/
def StopsProduct (f : Expr) : Prop := f.hasBaseKey = false ∨ HasLongTerm (exponentOf f)

theorem Smooth.keptByProducts : KeptByProducts Smooth where
  number := .number
  withCoeff smooth c := smooth.withCoeff c
  product := .product
  each := Smooth.each

theorem NoPole.keptByProducts (ρ : String → ℝ) : KeptByProducts (NoPole ρ) where
  number := .number
  withCoeff regular c := regular.withCoeff c
  product := .product
  each regular := by
    cases regular with
    | product each => exact each

/-- Smooth expressions, with the real number that each stands for. -/
noncomputable def Kind.smooth : Kind (String → ℝ) ℝ where
  kept := Smooth
  stops := StopsProduct
  defined := NoPole
  value := realValue

theorem smoothFactor_iff : SmoothFactor f ↔ Kind.smooth.Factor f :=
  ⟨fun factor => ⟨factor.formed, factor.proper, factor.smooth⟩,
    fun factor => ⟨factor.formed, factor.proper, factor.kept⟩⟩

/-- Nothing is left of two factors. -/
theorem combines_one (value : ∀ ρ, NoPole ρ f → NoPole ρ g → realValue ρ g * realValue ρ f = 1) :
    Kind.smooth.Combines g f one where
  coeff := rfl
  few := Nat.zero_le 1
  factor _ member := absurd member List.not_mem_nil
  stops _ member := absurd member List.not_mem_nil
  defined _ _ _ _ member := absurd member List.not_mem_nil
  value ρ regularF regularG := (value ρ regularF regularG).symm

/-- One factor is left of two. -/
theorem SmoothFactor.combines {h : Expr} (factor : SmoothFactor h)
    (stops : StopsProduct h → StopsProduct f ∨ StopsProduct g)
    (regular : ∀ ρ, NoPole ρ f → NoPole ρ g → NoPole ρ h)
    (value : ∀ ρ, NoPole ρ f → NoPole ρ g → realValue ρ h = realValue ρ g * realValue ρ f) :
    Kind.smooth.Combines g f h := by
  have only {k : Expr} (member : k ∈ Expr.mergedFactors h) : k = h := by
    rw [factor.mergedFactors] at member
    exact List.mem_singleton.mp member
  refine ⟨factor.proper.unit, by rw [factor.mergedFactors]; exact le_rfl, fun k member => ?_,
    fun k member long => ?_, fun ρ regularF regularG k member => ?_, fun ρ regularF regularG => ?_⟩
  · rw [only member]
    exact smoothFactor_iff.mp factor
  · rw [only member] at long
    exact stops long
  · rw [only member]
    exact regular ρ regularF regularG
  · rw [factor.mergedFactors, List.map_singleton, List.prod_singleton]
    exact value ρ regularF regularG

/-- Powers of one base add up. -/
theorem zpow_add_whole {K : Type} [Field K] {x : K} {p q : ℚ} (wholeP : p.den = 1) (wholeQ : q.den = 1)
    (nonzero : q + p ≤ 0 → x ≠ 0) : x ^ (q + p).num = x ^ q.num * x ^ p.num := by
  rw [add_num wholeQ wholeP]
  refine zpow_add' ?_
  by_cases zero : x = 0
  · refine .inr (.inl ?_)
    rw [← add_num wholeQ wholeP, Rat.num_ne_zero]
    exact fun total => nonzero total.le zero
  · exact .inl zero

theorem not_hasLongTerm_number (c : ℚ) : ¬ HasLongTerm (number c) := by
  rintro ⟨t, member, keyless⟩
  obtain rfl := List.mem_singleton.mp member
  cases keyless

namespace WholePower

theorem exponentOf_eq (whole : WholePower f) : exponentOf f = number f.power := by
  have exponent := whole.exponent f.power
  rwa [withPower_power] at exponent

theorem realValue_eq (whole : WholePower f) (ρ : String → ℝ) :
    realValue ρ f = realValue ρ (f.withPower 1) ^ f.power.num := by
  have value := whole.value ρ f.power
  rwa [withPower_power] at value

end WholePower

/-- Two like whole powers are merged into the power of the sum of their exponents. -/
theorem WholePower.merge (wholeF : WholePower f) (wholeG : WholePower g)
    (bases : ∀ ρ, realValue ρ (f.withPower 1) = realValue ρ (g.withPower 1)) (n : Nat) :
    ∃ merged, mergeAlike (n + 3) g f = .ok merged ∧ Kind.smooth.Combines g f merged := by
  have total := Rational.add_den wholeG.whole wholeF.whole
  have merged : mergeAlike (n + 3) g f = .ok (mergedPower g f) := by
    rw [mergeAlike, wholeG.exponentOf_eq, wholeF.exponentOf_eq, add_numbers, wholeG.base]
    exact wholeG.factor.powWithin_withPower wholeG.plain n _
  have nonzero {ρ : String → ℝ} (regularF : NoPole ρ f) (regularG : NoPole ρ g)
      (below : g.power + f.power ≤ 0) : realValue ρ (g.withPower 1) ≠ 0 := by
    rcases lt_or_gt_of_ne (power_ne_zero wholeF.factor.formed) with negative | positive
    · rw [← bases]
      exact wholeF.nonzero ρ regularF negative
    · exact wholeG.nonzero ρ regularG (by linarith)
  have values (ρ : String → ℝ) (regularF : NoPole ρ f) (regularG : NoPole ρ g) :
      realValue ρ (g.withPower 1) ^ (g.power + f.power).num = realValue ρ g * realValue ρ f := by
    rw [wholeG.realValue_eq, wholeF.realValue_eq, bases]
    exact zpow_add_whole wholeF.whole wholeG.whole (nonzero regularF regularG)
  refine ⟨_, merged, ?_⟩
  unfold mergedPower
  split
  next zero =>
    refine combines_one fun ρ regularF regularG => ?_
    rw [← values ρ regularF regularG, zero, Rat.num_zero, zpow_zero]
  next other =>
    refine (wholeG.factor.withPower total other).combines (fun stops => .inr ?_) (fun ρ regularF regularG => ?_)
      fun ρ regularF regularG => ?_
    · rcases stops with keyless | long
      · exact .inl (by rwa [hasBaseKey_withPower] at keyless)
      · rw [wholeG.exponent] at long
        exact absurd long (not_hasLongTerm_number _)
    · exact wholeG.regular ρ regularG _ fun negative => nonzero regularF regularG negative.le
    · rw [wholeG.value, values ρ regularF regularG]

theorem smoothFactor_powerOfE {p : ℚ} (nonzero : p ≠ 0) : SmoothFactor (symbol 1 "e" p) :=
  ⟨⟨one_ne_zero, nonzero, .inl (by decide), fun same => absurd same (by decide), fun same => absurd same (by decide)⟩,
    ⟨rfl, rfl, rfl⟩, .powerOfE 1 p⟩

theorem noPole_powerOfE (c p : ℚ) : NoPole ρ (symbol c "e" p) := by
  refine .symbol fun _ => ?_
  rw [realValue_bare_e]
  exact Real.exp_ne_zero 1

theorem naturalLog?_smooth {u : Expr} (smooth : Smooth u) : naturalLog? "e" 1 u = none := by
  cases smooth with
  | circular named =>
    rcases named with rfl | rfl
    · simp [naturalLog?]
    · simp [naturalLog?]
  | _ => rfl

/-- Two powers of `e` are merged by adding their exponents. -/
theorem PowerOfE.merge (powerF : PowerOfE f) (powerG : PowerOfE g) (n : Nat) :
    (mergeAlike (n + 3) g f = .error .unsupported ∧ (StopsProduct f ∨ StopsProduct g)) ∨
      ∃ merged, mergeAlike (n + 3) g f = .ok merged ∧ Kind.smooth.Combines g f merged := by
  have unfolded : mergeAlike (n + 3) g f = (do
      powWithin (n + 3) (bare "e") (← add (exponentOf g) (exponentOf f))) := by
    rw [mergeAlike, powerG.base]
  rcases add_smooth powerG.formed powerF.formed powerG.smooth powerF.smooth with
    ⟨failed, long⟩ | ⟨w, added, adds⟩
  · refine .inl ⟨by rw [unfolded, failed]; rfl, ?_⟩
    exact long.symm.imp .inr .inr
  rw [unfolded, added]
  change (powWithin (n + 3) (bare "e") w = _ ∧ _) ∨ ∃ merged, powWithin (n + 3) (bare "e") w = _ ∧ _
  have values (ρ : String → ℝ) : Real.exp (realValue ρ w) = realValue ρ g * realValue ρ f := by
    rw [powerF.value, powerG.value, adds.value, Real.exp_add]
  cases numeric : w.isNumber with
  | true =>
    cases w with
    | number p =>
      refine .inr ⟨_, smoothFactor_bare_e.powWithin_withPower rfl n p, ?_⟩
      split
      next zero =>
        refine combines_one fun ρ _ _ => ?_
        rw [← values, zero, realValue, Rat.cast_zero, Real.exp_zero]
      next other =>
        refine (smoothFactor_powerOfE other).combines (fun stops => ?_) (fun ρ _ _ => noPole_powerOfE 1 p)
          fun ρ _ _ => ?_
        · rcases stops with keyless | long
          · cases keyless
          · exact absurd long (not_hasLongTerm_number p)
        · have value : realValue ρ (symbol 1 "e" p) = Real.exp p := by simp [realValue]
          rw [← values, value]
          rfl
    | _ => cases numeric
  | false =>
    have raised : powWithin (n + 3) (bare "e") w = .ok (exponential 1 (bare "e") w) := by
      have digits : isIntegerText "e" = false := by decide
      have cancels := naturalLog?_smooth adds.smooth
      cases w with
      | number => cases numeric
      | _ =>
        unfold powWithin
        rw [bare]
        simp only [isOne, isZero, Bool.false_eq_true, if_false, if_true, cancels, digits, scale_one]
        rfl
    have factor : SmoothFactor (exponential 1 (bare "e") w) :=
      ⟨⟨one_ne_zero, numeric, smoothFactor_bare_e.formed, adds.formed⟩, ⟨rfl, rfl, rfl⟩, .exponential adds.smooth⟩
    refine .inr ⟨_, raised, factor.combines (fun stops => ?_) (fun ρ regularF regularG => ?_) fun ρ _ _ => ?_⟩
    · rcases stops with keyless | long
      · exact absurd keyless (by simp [hasBaseKey, face, bare, coeff, singleFace])
      · exact (adds.long long).symm.imp .inr .inr
    · exact .exponential (noPole_powerOfE 1 1)
        (adds.regular ρ (powerG.regular ρ regularG) (powerF.regular ρ regularF))
    · rw [realValue_exponential, Rat.cast_one, one_mul, values]

/-- Products of smooth expressions have the product of the values. -/
theorem Kind.lawful_smooth : Kind.smooth.Lawful where
  kept := Smooth.keptByProducts
  defined := NoPole.keptByProducts
  adds := addsUp_realValue
  product ρ c factors := by
    change realValue ρ (product c factors) = _
    rw [realValue, realValues_eq]
    rfl
  keyless _ keyless := .inl keyless
  alike n g f factorG factorF same := by
    rcases alike_cases (smoothFactor_iff.mpr factorF) (smoothFactor_iff.mpr factorG) same with
      ⟨wholeF, wholeG, bases⟩ | ⟨powerF, powerG⟩
    · exact .inr (wholeF.merge wholeG bases n)
    · exact powerF.merge powerG n

theorem realValue_scale (ρ : String → ℝ) (e : Expr) (c : ℚ) : realValue ρ (e.scale c) = c * realValue ρ e :=
  Kind.lawful_smooth.value_scale ρ e c

theorem SmoothFactor.powRat_withPower (factor : SmoothFactor f) (plain : f.isExponential = false) (p : ℚ) :
    (f.withPower 1).powRat p = .ok (if p = 0 then one else f.withPower p) := by
  obtain ⟨n, enough⟩ : ∃ n, workLimit (f.withPower 1) (f.withPower 1) = n + 2 := by
    have enough := @enough_work_pow (f.withPower 1) (f.withPower 1)
    exact ⟨workLimit (f.withPower 1) (f.withPower 1) - 2, by omega⟩
  have raised := factor.powWithin_withPower plain n p
  rw [powWithin] at raised
  rw [powRat, enough, raised]

end ExactAlgebra.Expr
