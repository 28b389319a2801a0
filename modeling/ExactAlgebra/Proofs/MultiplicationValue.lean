import ExactAlgebra.Proofs.Merging
import Mathlib

/-! The value of a product and of a whole power. Among powers of plain variables and of sums, merging
two like factors adds their powers; equal keys mean equal bases, so the value is kept. Every product
of such factors is returned, unless a key is too long to be written out. -/
namespace ExactAlgebra.Expr

variable {ρ : String → ℚ} {scheme : Scheme}

/-- A power of a plain variable or of a sum, as it stands in a product. -/
structure PlainFactor (scheme : Scheme) (f : Expr) : Prop where
  formed : f.WellFormed
  proper : IsFactor f
  built : BuiltBy scheme f

@[simp] theorem withPower_withPower (e : Expr) (p q : Rat) :
    (e.withPower p).withPower q = e.withPower q := by
  cases e <;> rfl

@[simp] theorem coeff_withPower (e : Expr) (p : Rat) : (e.withPower p).coeff = e.coeff := by
  cases e <;> rfl

theorem withPower_power (e : Expr) : e.withPower e.power = e := by
  cases e <;> rfl

theorem stem_withPower (e : Expr) (p : Rat) : (e.withPower p).stem = e.stem := by
  cases e <;> rfl

namespace PlainFactor

/-- A plain factor is a power of a plain variable or of a sum. -/
theorem cases {f : Expr} (plain : PlainFactor scheme f) :
    (∃ name p, f = symbol 1 name p ∧ isVariableName name = true ∧ scheme.powers p) ∨
      ∃ terms p, f = sum 1 terms p ∧ scheme.powers p := by
  obtain ⟨formed, proper, built⟩ := plain
  cases built with
  | number => exact absurd proper.notNumber (by simp [isNumber])
  | @symbol c name p named power =>
    obtain rfl : c = 1 := proper.unit
    exact .inl ⟨name, p, rfl, named, power⟩
  | @sum c terms p each shares power =>
    obtain rfl : c = 1 := proper.unit
    exact .inr ⟨terms, p, rfl, power⟩
  | product => exact absurd proper.notProduct (by simp [isProduct])

theorem power_ne_zero {f : Expr} (plain : PlainFactor scheme f) : f.power ≠ 0 := by
  have formed := plain.formed
  obtain ⟨name, p, rfl, _⟩ | ⟨terms, p, rfl, _⟩ := plain.cases
  · exact formed.2.1
  · exact formed.2.1

theorem powers {f : Expr} (plain : PlainFactor scheme f) : scheme.powers f.power := by
  obtain ⟨name, p, rfl, _, power⟩ | ⟨terms, p, rfl, power⟩ := plain.cases
  · exact power
  · exact power

theorem based {f : Expr} (plain : PlainFactor scheme f) : DepictedBase f :=
  (plain.built.depicted plain.formed).2 plain.proper.notNumber plain.proper.notProduct

theorem eval_eq {f : Expr} (plain : PlainFactor scheme f) (ρ : String → ℚ) :
    eval ρ f = eval ρ f.stem ^ f.power.num := by
  have value := plain.built.eval_unit plain.proper.notNumber plain.proper.notProduct ρ
  rwa [unit_of_coeff plain.proper.unit] at value

/-- Another power of the same base. -/
theorem withPower {f : Expr} (plain : PlainFactor scheme f) {p : Rat} (power : scheme.powers p)
    (nonzero : p ≠ 0) : PlainFactor scheme (f.withPower p) := by
  have formed := plain.formed
  have built := plain.built
  obtain ⟨name, q, rfl, named, _⟩ | ⟨terms, q, rfl, _⟩ := plain.cases
  · refine ⟨⟨one_ne_zero, nonzero, formed.2.2.1, fun digits => ?_, fun same => ?_⟩,
      ⟨rfl, rfl, rfl⟩, .symbol named power⟩
    · simp [isVariableName, digits] at named
    · simp [isVariableName, isConstantName, same] at named
  · refine ⟨⟨one_ne_zero, nonzero, formed.2.2⟩, ⟨rfl, rfl, rfl⟩, ?_⟩
    cases built with
    | sum each shares _ => exact .sum each shares power

theorem exponentOf_eq {f : Expr} (plain : PlainFactor scheme f) : exponentOf f = number f.power := by
  obtain ⟨name, q, rfl, _⟩ | ⟨terms, q, rfl, _⟩ := plain.cases
  · rfl
  · rfl

theorem baseOf_eq {f : Expr} (plain : PlainFactor scheme f) : baseOf f = f.withPower 1 := by
  obtain ⟨name, q, rfl, named, _⟩ | ⟨terms, q, rfl, _⟩ := plain.cases
  · have digits : isIntegerText name = false := by
      simp only [isVariableName, Bool.and_eq_true, Bool.not_eq_true'] at named
      exact named.2
    simp only [baseOf, digits, Bool.false_eq_true, if_false]
    rfl
  · rfl

end PlainFactor

theorem add_numbers (x y : Rat) : add (number x) (number y) = .ok (number (x + y)) := by
  unfold add
  split
  next zero =>
    have none : x = 0 := by simpa [isZero] using zero
    rw [none, zero_add]
  split
  next zero =>
    have none : y = 0 := by simpa [isZero] using zero
    rw [none, add_zero]
  · rfl

/-- The number of binary digits of numerator or denominator, whichever has more. -/
def bitSize (c : Rat) : Nat :=
  if Rational.bitLength c.num.natAbs < Rational.bitLength c.den then Rational.bitLength c.den
  else Rational.bitLength c.num.natAbs

def tooLarge (c p : Rat) : Prop := 1 < bitSize c ∧ maxIntegerBits < bitSize c * p.num.natAbs

instance (c p : Rat) : Decidable (tooLarge c p) := inferInstanceAs (Decidable (_ ∧ _))

/-- A whole power of a number is a number, unless it has too many digits. -/
theorem powNumber_whole {c p : Rat} (whole : p.den = 1) (nonzero : c ≠ 0) :
    powNumber c p =
      if tooLarge c p then .error (.powerTooLarge maxIntegerBits) else .ok (number (c ^ p.num)) := by
  have raised : Rational.power c p.num = .ok (c ^ p.num) := by
    rw [Rational.power_eq, if_neg fun both => nonzero both.2]
  have size : (if Rational.bitLength c.num.natAbs < Rational.bitLength c.den
      then Rational.bitLength c.den else Rational.bitLength c.num.natAbs) = bitSize c := rfl
  unfold powNumber tooLarge
  simp only [Rational.isInteger, whole, beq_self_eq_true, if_true, nonzero, decide_false,
    Bool.false_and, Bool.false_eq_true, if_false, size, raised, Bool.and_eq_true, decide_eq_true_eq]
  rfl

/-- A number times an expression that is not zero. -/
theorem powNumber_one (p : ℚ) : powNumber 1 p = .ok one := by
  by_cases whole : p.den = 1
  · rw [powNumber_whole whole one_ne_zero, if_neg fun large => absurd large.1 (by decide), one_zpow]
    rfl
  · unfold powNumber
    simp [Rational.isInteger, whole]

theorem mulWithin_number (n : Nat) {c : Rat} {b : Expr} (nonzero : c ≠ 0) (some : b.isZero = false) :
    mulWithin (n + 1) (number c) b = .ok (b.scale c) := by
  have number : (Expr.number c).isZero = false := by simp [isZero, nonzero]
  unfold mulWithin
  simp [number, some]

theorem isVariableName_eq {name : String} (named : isVariableName name = true) :
    isIntegerText name = false ∧ (name == "i") = false := by
  simp only [isVariableName, isConstantName, Bool.and_eq_true, Bool.not_eq_true',
    Bool.or_eq_false_iff] at named
  exact ⟨named.2, named.1.2⟩

/-- A whole power of a power multiplies the powers. -/
theorem powRatWithin_base (n : Nat) {a : Expr} (formed : a.WellFormed) (built : BuiltBy scheme a)
    (number : a.isNumber = false) (product : a.isProduct = false) {p : Rat} (whole : p.den = 1)
    (zero : p ≠ 0) (one : p ≠ 1) :
    powRatWithin (n + 2) a p =
      if tooLarge a.coeff p then .error (.powerTooLarge maxIntegerBits)
      else .ok ((a.withPower (a.power * p)).withCoeff (a.coeff ^ p.num)) := by
  have coeff := formed.coeff_ne_zero number
  have power := (built.power_whole formed number product).2.2.1
  have total : a.power * p ≠ 0 := mul_ne_zero power zero
  have raised : a.coeff ^ p.num ≠ 0 := zpow_ne_zero _ coeff
  have outer := powNumber_whole whole coeff
  -- The number in front is multiplied in last, and does not change what stands behind it.
  have finish {b : Expr} (some : b.isZero = false) (unit : b.coeff = 1) :
      mulWithin (n + 1) (Expr.number (a.coeff ^ p.num)) b =
        .ok (b.withCoeff (a.coeff ^ p.num)) := by
    rw [mulWithin_number n raised some, scale, if_neg raised, unit, one_mul]
  unfold powRatWithin
  rw [if_neg zero, if_neg one]
  by_cases large : tooLarge a.coeff p
  · rw [if_pos large] at outer ⊢
    cases built with
    | number => simp [isNumber] at number
    | product => simp [isProduct] at product
    | symbol | sum =>
      simp only [Expr.coeff] at outer
      simp only [Expr.coeff, outer]
      rfl
  · rw [if_neg large] at outer ⊢
    cases built with
    | number => simp [isNumber] at number
    | product => simp [isProduct] at product
    | @symbol c name q named _ =>
      obtain ⟨digits, imaginary⟩ := isVariableName_eq named
      simp only [Expr.coeff, Expr.power] at outer total
      simp only [outer, digits, imaginary, total, Bool.false_eq_true, Bool.false_and, if_false]
      exact finish rfl rfl
    | @sum c terms q each shares _ =>
      simp only [Expr.coeff, Expr.power] at outer total
      simp only [Expr.coeff, Expr.power, outer, total, if_false]
      exact finish rfl rfl

/-- Merging two powers of a base: they add up, and cancel to one. -/
theorem PlainFactor.powWithin_eq {g : Expr} (plain : PlainFactor scheme g) (n : Nat) {p : Rat}
    (whole : p.den = 1) :
    powWithin (n + 3) (baseOf g) (number p) = .ok (if p = 0 then one else g.withPower p) := by
  have base := plain.withPower scheme.one one_ne_zero
  rw [plain.baseOf_eq, powWithin]
  by_cases zero : p = 0
  · have some : (g.withPower 1).isZero = false := by
      obtain ⟨name, q, rfl, _⟩ | ⟨terms, q, rfl, _⟩ := plain.cases <;> rfl
    unfold powRatWithin
    simp [zero, some]
  by_cases one : p = 1
  · unfold powRatWithin
    simp [one]
  · have unit : (g.withPower 1).coeff = 1 := by rw [coeff_withPower, plain.proper.unit]
    have power : (g.withPower 1).power = 1 := by
      obtain ⟨name, q, rfl, _⟩ | ⟨terms, q, rfl, _⟩ := plain.cases <;> rfl
    rw [powRatWithin_base n base.formed base.built base.proper.notNumber base.proper.notProduct whole
      zero one, unit, power, one_mul, one_zpow, withPower_withPower, if_neg zero,
      if_neg fun large => absurd large.1 (by decide)]
    exact congrArg Except.ok (unit_of_coeff (by rw [coeff_withPower, plain.proper.unit]))

theorem stem_ne_zero {f : Expr} (plain : PlainFactor scheme f) (defined : Defined ρ f)
    (negative : f.power < 0) : eval ρ f.stem ≠ 0 := by
  cases defined with
  | number => exact absurd plain.proper.notNumber (by simp [isNumber])
  | product => exact absurd plain.proper.notProduct (by simp [isProduct])
  | symbol nonzero => simpa [stem, unit, withCoeff, withPower, eval] using nonzero negative
  | sum each nonzero => simpa [stem, unit, withCoeff, withPower, eval] using nonzero negative

theorem Defined.withPower {f : Expr} (plain : PlainFactor scheme f) (defined : Defined ρ f)
    {p : Rat} (nonzero : p < 0 → eval ρ f.stem ≠ 0) : Defined ρ (f.withPower p) := by
  cases defined with
  | number => exact absurd plain.proper.notNumber (by simp [isNumber])
  | product => exact absurd plain.proper.notProduct (by simp [isProduct])
  | symbol =>
    refine .symbol fun negative => ?_
    simpa [stem, Expr.unit, Expr.withCoeff, Expr.withPower, eval] using nonzero negative
  | sum each =>
    refine .sum each fun negative => ?_
    simpa [stem, Expr.unit, Expr.withCoeff, Expr.withPower, eval] using nonzero negative

theorem add_num {p q : Rat} (wholeP : p.den = 1) (wholeQ : q.den = 1) :
    (p + q).num = p.num + q.num := by
  rw [← Rat.coe_int_num_of_den_eq_one wholeP, ← Rat.coe_int_num_of_den_eq_one wholeQ,
    ← Int.cast_add, Rat.num_intCast, Rat.num_intCast, Rat.num_intCast]

def mergedPower (g f : Expr) : Expr :=
  if g.power + f.power = 0 then one else g.withPower (g.power + f.power)

theorem power_withPower {f : Expr} (plain : PlainFactor scheme f) (p : Rat) :
    (f.withPower p).power = p := by
  obtain ⟨name, q, rfl, _⟩ | ⟨terms, q, rfl, _⟩ := plain.cases
  · rfl
  · rfl

/-- Two like factors are merged into one of the same value. -/
theorem eval_mergedPower {f g : Expr} (plainF : PlainFactor scheme f) (plainG : PlainFactor scheme g)
    (same : f.baseKey = g.baseKey) (definedF : Defined ρ f) (definedG : Defined ρ g) :
    eval ρ (mergedPower g f) = eval ρ g * eval ρ f ∧ Defined ρ (mergedPower g f) := by
  have wholeF := scheme.whole _ plainF.powers
  have wholeG := scheme.whole _ plainG.powers
  have base : eval ρ f.stem = eval ρ g.stem :=
    eval_stem_eq_of_baseKey_eq plainF.based plainG.based same ρ
  have nonzero (total : g.power + f.power ≤ 0) : eval ρ g.stem ≠ 0 := by
    rcases lt_or_gt_of_ne plainF.power_ne_zero with negative | positive
    · rw [← base]
      exact stem_ne_zero plainF definedF negative
    · exact stem_ne_zero plainG definedG (by linarith)
  have powers : eval ρ g * eval ρ f = eval ρ g.stem ^ (g.power + f.power).num := by
    rw [plainG.eval_eq, plainF.eval_eq, base, add_num wholeG wholeF]
    refine (zpow_add' ?_).symm
    by_cases zero : eval ρ g.stem = 0
    · right
      left
      rw [← add_num wholeG wholeF, Rat.num_ne_zero]
      intro total
      exact nonzero total.le zero
    · exact .inl zero
  unfold mergedPower
  split
  next total =>
    rw [powers, total]
    exact ⟨by simp [eval_one], .number 1⟩
  next total =>
    have plain := plainG.withPower (scheme.add _ _ plainG.powers plainF.powers total) total
    refine ⟨?_, definedG.withPower plainG fun negative => nonzero negative.le⟩
    rw [powers, plain.eval_eq, stem_withPower, power_withPower plainG]

theorem mergedFactors_mergedPower {f g : Expr} (plainF : PlainFactor scheme f)
    (plainG : PlainFactor scheme g) :
    (mergedPower g f).coeff = 1 ∧
      mergedFactors (mergedPower g f) =
        if g.power + f.power = 0 then [] else [g.withPower (g.power + f.power)] := by
  unfold mergedPower
  split
  · exact ⟨rfl, rfl⟩
  next total =>
    have plain := plainG.withPower (scheme.add _ _ plainG.powers plainF.powers total) total
    refine ⟨plain.proper.unit, ?_⟩
    obtain ⟨name, q, rfl, _⟩ | ⟨terms, q, rfl, _⟩ := plainG.cases
    · rfl
    · rfl

theorem mergeAlike_plain {f g : Expr} (n : Nat) (plainF : PlainFactor scheme f)
    (plainG : PlainFactor scheme g) : mergeAlike (n + 3) g f = .ok (mergedPower g f) := by
  have whole := Rational.add_den (scheme.whole _ plainG.powers) (scheme.whole _ plainF.powers)
  rw [mergeAlike, plainG.exponentOf_eq, plainF.exponentOf_eq, add_numbers]
  exact plainG.powWithin_eq n whole

theorem mergeWithin_alike {n : Nat} {f g : Expr} {pending : List Expr}
    {factors others : List (String × Expr)} {c : Rat} (plainF : PlainFactor scheme f)
    (plainG : PlainFactor scheme g) (keyed : f.hasBaseKey = true)
    (found : removeFactor f.baseKey factors = some (g, others)) :
    mergeWithin (n + 4) (f :: pending) factors c =
      mergeWithin (n + 3) (pending ++ mergedFactors (mergedPower g f)) others c := by
  rw [mergeWithin_found keyed found, mergeAlike_plain n plainF plainG]
  change mergeWithin (n + 3) (pending ++ mergedFactors (mergedPower g f)) others
    (c * (mergedPower g f).coeff) = _
  rw [(mergedFactors_mergedPower plainF plainG).1, mul_one]

theorem BuiltBy.keptByProducts (scheme : Scheme) : KeptByProducts (BuiltBy scheme) where
  number := .number
  withCoeff built c := built.withCoeff c
  product := .product
  each built := by
    cases built with
    | product each => exact each

theorem Defined.keptByProducts (ρ : String → ℚ) : KeptByProducts (Defined ρ) where
  number := .number
  withCoeff defined c := defined.withCoeff c
  product := .product
  each defined := by
    cases defined with
    | product each => exact each

/-- The expressions that a scheme builds. Only a key that cannot be written out stops a product. -/
def Kind.ofScheme (scheme : Scheme) : Kind (String → ℚ) ℚ where
  kept := BuiltBy scheme
  stops f := f.hasBaseKey = false
  defined := Defined
  value := eval

theorem plainFactor_iff {f : Expr} : PlainFactor scheme f ↔ (Kind.ofScheme scheme).Factor f :=
  ⟨fun plain => ⟨plain.formed, plain.proper, plain.built⟩,
    fun factor => ⟨factor.formed, factor.proper, factor.kept⟩⟩

/-- Two like powers are merged into one of the same value. -/
theorem combines_mergedPower {f g : Expr} (plainF : PlainFactor scheme f) (plainG : PlainFactor scheme g)
    (same : f.baseKey = g.baseKey) : (Kind.ofScheme scheme).Combines g f (mergedPower g f) := by
  obtain ⟨coeff, shape⟩ := mergedFactors_mergedPower plainF plainG
  have only {h : Expr} (member : h ∈ mergedFactors (mergedPower g f)) :
      g.power + f.power ≠ 0 ∧ h = g.withPower (g.power + f.power) := by
    rw [shape] at member
    split at member
    · cases member
    next total => exact ⟨total, List.mem_singleton.mp member⟩
  refine ⟨coeff, ?_, fun h member => ?_, fun h member stops => ?_, fun ρ definedF definedG h member => ?_,
    fun ρ definedF definedG => ?_⟩
  · rw [shape]
    split <;> simp
  · obtain ⟨total, rfl⟩ := only member
    exact plainFactor_iff.mp
      (plainG.withPower (scheme.add _ _ plainG.powers plainF.powers total) total)
  · obtain ⟨-, rfl⟩ := only member
    exact .inr (by simpa [Kind.ofScheme] using stops)
  · obtain ⟨total, rfl⟩ := only member
    have defined := (eval_mergedPower plainF plainG same definedF definedG).2
    rwa [mergedPower, if_neg total] at defined
  · have value := (eval_mergedPower plainF plainG same definedF definedG).1
    change ((mergedFactors (mergedPower g f)).map (eval ρ)).prod = eval ρ g * eval ρ f
    rw [← value, shape, mergedPower]
    split <;> simp [eval_one]

theorem Kind.lawful_ofScheme (scheme : Scheme) : (Kind.ofScheme scheme).Lawful where
  kept := BuiltBy.keptByProducts scheme
  defined := Defined.keptByProducts
  adds := addsUp_eval
  product ρ c factors := by
    change eval ρ (product c factors) = _
    rw [eval, evalProduct_eq]
    rfl
  keyless _ keyless := keyless
  alike n g f factorG factorF same := by
    have plainG := plainFactor_iff.mpr factorG
    have plainF := plainFactor_iff.mpr factorF
    exact .inr ⟨_, mergeAlike_plain n plainF plainG, combines_mergedPower plainF plainG same⟩

/-- The factors of a well-formed expression built by a scheme are plain. -/
theorem plainFactor_factors {e : Expr} (formed : e.WellFormed) (built : BuiltBy scheme e) :
    ∀ f ∈ e.factors, PlainFactor scheme f := fun f member =>
  plainFactor_iff.mpr ((Kind.lawful_ofScheme scheme).factor formed built f member)

structure Multiplies (scheme : Scheme) (a b r : Expr) : Prop where
  built : BuiltBy scheme r
  defined : ∀ ρ, Defined ρ a → Defined ρ b → Defined ρ r
  value : ∀ ρ, Defined ρ a → Defined ρ b → eval ρ r = eval ρ a * eval ρ b

/-- A product is returned with the right value, or a key cannot be written out. -/
theorem mul_built {a b : Expr} (formedA : a.WellFormed) (formedB : b.WellFormed)
    (builtA : BuiltBy scheme a) (builtB : BuiltBy scheme b) :
    (mul a b = .error .unsupported ∧ ∃ f ∈ a.factors ++ b.factors, f.hasBaseKey = false) ∨
      ∃ r, mul a b = .ok r ∧ Multiplies scheme a b r := by
  rcases (Kind.lawful_ofScheme scheme).mul formedA formedB builtA builtB with
    failed | ⟨r, returned, multiplies⟩
  · exact .inl failed
  · exact .inr ⟨r, returned, multiplies.kept, multiplies.defined, multiplies.value⟩

/-- Factors of which none is alike to another or to those before go over as they are. -/
theorem mergeWithin_append {n : Nat} {pending rest : List Expr} {factors : List (String × Expr)}
    (c : Rat) (keyed : ∀ f ∈ pending, f.hasBaseKey = true)
    (distinct : (factors.map (·.1) ++ pending.map baseKey).Nodup) :
    mergeWithin (n + pending.length) (pending ++ rest) factors c =
      mergeWithin n rest (factors ++ pending.map fun f => (f.baseKey, f)) c := by
  induction pending generalizing factors with
  | nil => simp
  | cons f pending ih =>
    have fresh : removeFactor f.baseKey factors = none := by
      cases found : removeFactor f.baseKey factors with
      | none => rfl
      | some item =>
        obtain ⟨g, others⟩ := item
        have member : (f.baseKey, g) ∈ factors :=
          (removeFactor_some found).1.mem_iff.mpr List.mem_cons_self
        exact absurd rfl ((List.nodup_append.mp distinct).2.2 _ (List.mem_map_of_mem member) _
          (by simp))
    rw [List.length_cons, ← Nat.add_assoc, List.cons_append, mergeWithin_fresh (keyed f List.mem_cons_self) fresh,
      ih]
    · simp
    · exact fun g later => keyed g (List.mem_cons_of_mem _ later)
    · simpa [List.append_assoc] using distinct

theorem mergeWithin_distinct {n : Nat} {pending : List Expr} {factors : List (String × Expr)}
    (c : Rat) (enough : pending.length ≤ n) (keyed : ∀ f ∈ pending, f.hasBaseKey = true)
    (distinct : (factors.map (·.1) ++ pending.map baseKey).Nodup) :
    mergeWithin n pending factors c =
      .ok (factors ++ pending.map fun f => (f.baseKey, f), c) := by
  obtain ⟨m, rfl⟩ := Nat.exists_eq_add_of_le' enough
  have merged : mergeWithin (m + pending.length) (pending ++ []) factors c =
      mergeWithin m [] (factors ++ pending.map fun f => (f.baseKey, f)) c := mergeWithin_append c keyed distinct
  rw [List.append_nil] at merged
  rw [merged]
  cases m <;> rfl

/-- The product of two expressions of which no factors are alike has the factors of both. -/
theorem mulWithin_distinct {n : Nat} {a b : Expr} (numberA : a.isNumber = false)
    (numberB : b.isNumber = false) (enough : a.factors.length + b.factors.length ≤ n)
    (keyed : ∀ f ∈ a.factors ++ b.factors, f.hasBaseKey = true)
    (distinct : ((a.factors ++ b.factors).map baseKey).Nodup) :
    mulWithin (n + 1) a b = .ok (ofFactors (a.factors ++ b.factors) (a.coeff * b.coeff)) := by
  have some {e : Expr} (number : e.isNumber = false) : e.isZero = false := by
    cases e with
    | number => simp [isNumber] at number
    | _ => rfl
  have merged := @mergeWithin_distinct n (a.factors ++ b.factors) [] (a.coeff * b.coeff)
    (by simpa using enough) keyed (by simpa using distinct)
  unfold mulWithin
  rw [if_neg (by simp [some numberA, some numberB])]
  split
  · simp [isNumber] at numberA
  · simp [isNumber] at numberB
  · rw [merged]
    simp only [List.nil_append, bind, Except.bind, pure, Except.pure, List.map_map, Function.comp_def,
      List.map_id']

theorem ofFactors_nil {k : Rat} (nonzero : k ≠ 0) : ofFactors [] k = number k := by
  rw [ofFactors, if_neg nonzero]

theorem ofFactors_several {factors : List Expr} (several : 2 ≤ factors.length) {k : Rat}
    (nonzero : k ≠ 0) : ofFactors factors k = product k factors := by
  match factors, several with
  | f :: g :: rest, _ => exact if_neg nonzero

theorem PlainFactor.standing {f : Expr} (plain : PlainFactor scheme f) : f.WellFormed ∧ IsFactor f :=
  ⟨plain.formed, plain.proper⟩

theorem factors_single {f : Expr} (proper : IsFactor f) : f.factors = [f] := by
  cases f with
  | number => cases proper.notNumber
  | product => cases proper.notProduct
  | _ => exact congrArg ([·]) (unit_of_coeff proper.unit)

/-- The factors of a product of factors. -/
theorem factors_ofFactors {factors : List Expr} {k : Rat} (nonzero : k ≠ 0)
    (proper : ∀ f ∈ factors, f.WellFormed ∧ IsFactor f) :
    (ofFactors factors k).factors.Perm factors ∧ (ofFactors factors k).coeff = k ∧
      ((ofFactors factors k).isNumber = true → factors = []) := by
  unfold ofFactors
  rw [if_neg nonzero]
  match factors with
  | [] => exact ⟨.refl _, rfl, fun _ => rfl⟩
  | [f] =>
    obtain ⟨formed, factor⟩ := proper f List.mem_cons_self
    refine ⟨?_, formed.coeff_withCoeff k, fun number => ?_⟩
    · rw [factors_withCoeff, factors_single factor]
    · rw [isNumber_withCoeff, factor.notNumber] at number
      cases number
  | f :: g :: rest =>
    exact ⟨sortFactors_perm _, rfl, fun number => by simp [isNumber] at number⟩

/-- Factors of which no two are alike, each as it may stand in a product. -/
structure Assorted (factors : List Expr) : Prop where
  proper : ∀ f ∈ factors, f.WellFormed ∧ IsFactor f
  keyed : ∀ f ∈ factors, f.hasBaseKey = true
  distinct : (factors.map baseKey).Nodup

namespace Assorted

variable {factors others : List Expr}

theorem perm (assorted : Assorted factors) (same : factors.Perm others) : Assorted others where
  proper f member := assorted.proper f (same.mem_iff.mpr member)
  keyed f member := assorted.keyed f (same.mem_iff.mpr member)
  distinct := (same.map baseKey).nodup_iff.mp assorted.distinct

theorem sublist (assorted : Assorted factors) (some : others.Sublist factors) : Assorted others where
  proper f member := assorted.proper f (some.subset member)
  keyed f member := assorted.keyed f (some.subset member)
  distinct := assorted.distinct.sublist (some.map baseKey)

theorem left (assorted : Assorted (factors ++ others)) : Assorted factors :=
  assorted.sublist (List.sublist_append_left factors others)

theorem right (assorted : Assorted (factors ++ others)) : Assorted others :=
  assorted.sublist (List.sublist_append_right factors others)

/-- The factors of a product are not alike. -/
theorem of_product {c : Rat} (formed : (product c factors).WellFormed) : Assorted factors where
  proper f member := ⟨allWellFormed_iff.mp formed.2.2 f member, formed.2.1.proper f member⟩
  keyed := formed.2.1.keyed
  distinct := formed.2.1.distinct

/-- Another factor may stand for one with the same key. -/
theorem replace {f g : Expr} (assorted : Assorted (factors ++ f :: others)) (proper : g.WellFormed ∧ IsFactor g)
    (key : g.baseKey = f.baseKey) (keyed : g.hasBaseKey = f.hasBaseKey) : Assorted (factors ++ g :: others) where
  proper := by
    have each := assorted.proper
    simp only [List.forall_mem_append, List.forall_mem_cons] at each ⊢
    exact ⟨each.1, proper, each.2.2⟩
  keyed := by
    have each := assorted.keyed
    simp only [List.forall_mem_append, List.forall_mem_cons] at each ⊢
    exact ⟨each.1, keyed.trans each.2.1, each.2.2⟩
  distinct := by simpa [key] using assorted.distinct

/-- One more factor, not alike to those before it. -/
theorem mulWithin_ofFactors {n : Nat} {k : Rat} {f : Expr} (assorted : Assorted (factors ++ [f])) (nonzero : k ≠ 0)
    (enough : factors.length + 1 ≤ n) :
    ∃ after, mulWithin (n + 1) (ofFactors factors k) f = .ok (ofFactors after k) ∧
      after.Perm (factors ++ [f]) := by
  obtain ⟨perm, coeff, number⟩ := factors_ofFactors nonzero assorted.left.proper
  have proper := (assorted.proper f (by simp)).2
  have single := factors_single proper
  cases numberA : (ofFactors factors k).isNumber with
  | true =>
    obtain rfl := number numberA
    have some : f.isZero = false := by
      cases f with
      | number => cases proper.notNumber
      | _ => rfl
    refine ⟨[f], ?_, .refl _⟩
    rw [ofFactors, if_neg nonzero, mulWithin_number n nonzero some, scale, if_neg nonzero, proper.unit, one_mul,
      ofFactors, if_neg nonzero]
  | false =>
    have both : ((ofFactors factors k).factors ++ f.factors).Perm (factors ++ [f]) := by
      rw [single]
      exact perm.append_right _
    have count : (ofFactors factors k).factors.length + f.factors.length ≤ n := by
      rw [single, perm.length_eq]
      exact enough
    have product := mulWithin_distinct numberA proper.notNumber count
      (fun g member => assorted.keyed g (both.mem_iff.mp member)) ((both.map baseKey).nodup_iff.mpr assorted.distinct)
    rw [coeff, proper.unit, mul_one] at product
    exact ⟨_, product, both⟩

/-- Factors of which no two are alike, multiplied one after the other. -/
theorem mulAll_ofFactors {k : ℚ} {done : List Expr} (assorted : Assorted (done ++ factors)) (nonzero : k ≠ 0) :
    ∃ after, mulAll (ofFactors done k) factors = .ok (ofFactors after k) ∧ after.Perm (done ++ factors) := by
  induction factors generalizing done with
  | nil => exact ⟨done, rfl, by simp⟩
  | cons f rest ih =>
    have shape : done ++ f :: rest = (done ++ [f]) ++ rest := by simp
    rw [shape] at assorted ⊢
    have perm := (factors_ofFactors nonzero assorted.left.left.proper).1.length_eq
    have enough : 2 * ((ofFactors done k).factors.length + f.factors.length) + 5 ≤ workLimit (ofFactors done k) f :=
      enough_work
    obtain ⟨n, limit⟩ : ∃ n, workLimit (ofFactors done k) f = n + 1 :=
      ⟨workLimit (ofFactors done k) f - 1, by omega⟩
    obtain ⟨next, multiplied, permNext⟩ := assorted.left.mulWithin_ofFactors nonzero (n := n) (by omega)
    rw [← limit] at multiplied
    have same : (next ++ rest).Perm ((done ++ [f]) ++ rest) := permNext.append_right rest
    obtain ⟨after, returned, permAfter⟩ := ih (assorted.perm same.symm)
    refine ⟨after, ?_, permAfter.trans same⟩
    rw [mulAll, List.foldlM_cons, mul, multiplied]
    exact returned

end Assorted

theorem mul_num {p q : Rat} (wholeP : p.den = 1) (wholeQ : q.den = 1) :
    (p * q).num = p.num * q.num ∧ (p * q).den = 1 := by
  rw [← Rat.coe_int_num_of_den_eq_one wholeP, ← Rat.coe_int_num_of_den_eq_one wholeQ,
    ← Int.cast_mul, Rat.num_intCast, Rat.num_intCast, Rat.num_intCast, Rat.den_intCast]
  exact ⟨rfl, rfl⟩

theorem eval_withPower {f : Expr} (plain : PlainFactor scheme f) (p : Rat) :
    eval ρ (f.withPower p) = eval ρ f.stem ^ p.num := by
  obtain ⟨name, q, rfl, _⟩ | ⟨terms, q, rfl, _⟩ := plain.cases
  · simp [withPower, stem, unit, withCoeff, eval]
  · simp [withPower, stem, unit, withCoeff, eval]

/-- A whole power of a factor has the power of its value. -/
theorem eval_withPower_mul {f : Expr} (plain : PlainFactor scheme f) (defined : Defined ρ f) {p : Rat}
    (whole : p.den = 1) (nonzero : p < 0 → eval ρ f ≠ 0) :
    Defined ρ (f.withPower (f.power * p)) ∧
      eval ρ (f.withPower (f.power * p)) = eval ρ f ^ p.num := by
  have wholeF := scheme.whole _ plain.powers
  constructor
  · refine defined.withPower plain fun negative => ?_
    by_cases below : p < 0
    · intro zero
      refine nonzero below ?_
      rw [plain.eval_eq, zero, zero_zpow _ (Rat.num_ne_zero.mpr plain.power_ne_zero)]
    · refine stem_ne_zero plain defined ?_
      by_contra above
      exact absurd negative (not_lt.mpr (mul_nonneg (not_lt.mp above) (not_lt.mp below)))
  · rw [eval_withPower plain, (mul_num wholeF whole).1, zpow_mul, ← plain.eval_eq]

structure Raises (scheme : Scheme) (a : Expr) (p : Rat) (r : Expr) : Prop where
  built : BuiltBy scheme r
  coeff : r.coeff = a.coeff ^ p.num
  defined : ∀ ρ, Defined ρ a → (p < 0 → eval ρ a ≠ 0) → Defined ρ r
  value : ∀ ρ, Defined ρ a → (p < 0 → eval ρ a ≠ 0) → eval ρ r = eval ρ a ^ p.num
  keyed : ∀ f ∈ r.factors, ∃ g ∈ a.factors, f.hasBaseKey = g.hasBaseKey

section Powers

variable {p : Rat} (whole : p.den = 1) (zero : p ≠ 0) (one : p ≠ 1)
  (closed : ∀ q, scheme.powers q → scheme.powers (q * p))

include zero closed in
theorem PlainFactor.raised {f : Expr} (plain : PlainFactor scheme f) :
    PlainFactor scheme (f.withPower (f.power * p)) :=
  plain.withPower (closed _ plain.powers) (mul_ne_zero plain.power_ne_zero zero)

include whole zero one in
theorem PlainFactor.powRatWithin_eq {f : Expr} (plain : PlainFactor scheme f) (n : Nat) :
    powRatWithin (n + 2) f p = .ok (f.withPower (f.power * p)) := by
  rw [powRatWithin_base n plain.formed plain.built plain.proper.notNumber plain.proper.notProduct
    whole zero one, plain.proper.unit, one_zpow, if_neg fun large => absurd large.1 (by decide)]
  exact congrArg Except.ok (unit_of_coeff (by rw [coeff_withPower, plain.proper.unit]))

include whole zero one closed in
/-- The powers of the factors of a product, one after the other. -/
theorem foldlM_powers {n : Nat} {k : Rat} (nonzero : k ≠ 0) {factors done : List Expr}
    (plain : ∀ f ∈ factors, PlainFactor scheme f) (assorted : Assorted (done ++ factors))
    (enough : done.length + factors.length + 2 ≤ n) :
    ∃ after, factors.foldlM (fun result f => do mulWithin n result (← powRatWithin n f p))
        (ofFactors done k) = .ok (ofFactors after k) ∧
      after.Perm (done ++ factors.map fun f => f.withPower (f.power * p)) := by
  induction factors generalizing done with
  | nil => exact ⟨done, rfl, by simp⟩
  | cons f rest ih =>
    obtain ⟨n, rfl⟩ : ∃ m, n = m + 2 := ⟨n - 2, by omega⟩
    simp only [List.length_cons] at enough
    have plainF := plain f List.mem_cons_self
    have raised : Assorted ((done ++ [f.withPower (f.power * p)]) ++ rest) := by
      simpa using assorted.replace (plainF.raised zero closed).standing (by simp) (by simp)
    obtain ⟨next, multiplied, perm⟩ := raised.left.mulWithin_ofFactors nonzero (n := n + 1) (by omega)
    have count := perm.length_eq
    simp only [List.length_append, List.length_singleton] at count
    obtain ⟨after, returned, permAfter⟩ := ih (fun g later => plain g (List.mem_cons_of_mem _ later))
      (raised.perm (perm.append_right rest).symm) (by omega)
    refine ⟨after, ?_, ?_⟩
    · rw [List.foldlM_cons, plainF.powRatWithin_eq whole zero one]
      change (mulWithin (n + 2) (ofFactors done k) (f.withPower (f.power * p)) >>= _) = _
      rw [multiplied]
      exact returned
    · refine permAfter.trans ?_
      simpa using perm.append_right (rest.map fun g => g.withPower (g.power * p))

include whole zero one closed in
/-- A whole power of a product is the product of the powers. -/
theorem powRatWithin_product {n : Nat} {c : Rat} {factors : List Expr}
    (formed : (product c factors).WellFormed) (built : BuiltBy scheme (product c factors))
    (enough : factors.length + 2 ≤ n) :
    (tooLarge c p → powRatWithin (n + 1) (product c factors) p =
      .error (.powerTooLarge maxIntegerBits)) ∧
    (¬ tooLarge c p → ∃ after, powRatWithin (n + 1) (product c factors) p =
        .ok (product (c ^ p.num) after) ∧
      after.Perm (factors.map fun f => f.withPower (f.power * p))) := by
  obtain ⟨nonzero, normal, all⟩ := formed
  have outer := powNumber_whole whole nonzero
  have raised : c ^ p.num ≠ 0 := zpow_ne_zero _ nonzero
  unfold powRatWithin
  rw [if_neg zero, if_neg one]
  constructor
  · intro large
    rw [if_pos large] at outer
    simp only [outer]
    rfl
  · intro small
    rw [if_neg small] at outer
    have plain : ∀ f ∈ factors, PlainFactor scheme f := by
      intro f member
      cases built with
      | product each =>
        exact ⟨allWellFormed_iff.mp all f member, normal.proper f member, each f member⟩
    have assorted : Assorted ([] ++ factors) := .of_product ⟨nonzero, normal, all⟩
    obtain ⟨after, returned, perm⟩ := foldlM_powers whole zero one closed raised plain assorted
      (by simpa using enough)
    have several : 2 ≤ after.length := by
      rw [perm.length_eq]
      simpa using normal.several
    refine ⟨after, ?_, by simpa using perm⟩
    simp only [outer]
    change List.foldlM _ (number (c ^ p.num)) factors = _
    rw [← ofFactors_nil raised, returned, ofFactors_several several raised]

include whole zero closed in
theorem raises_product {c : Rat} {factors after : List Expr}
    (formed : (product c factors).WellFormed) (built : BuiltBy scheme (product c factors))
    (perm : after.Perm (factors.map fun f => f.withPower (f.power * p))) :
    Raises scheme (product c factors) p (product (c ^ p.num) after) := by
  have plain : ∀ f ∈ factors, PlainFactor scheme f := by
    intro f member
    cases built with
    | product each =>
      exact ⟨allWellFormed_iff.mp formed.2.2 f member, formed.2.1.proper f member, each f member⟩
  have powers {ρ : String → ℚ} (defined : Defined ρ (product c factors))
      (nonzero : p < 0 → eval ρ (product c factors) ≠ 0) : ∀ f ∈ factors,
      Defined ρ (f.withPower (f.power * p)) ∧
        eval ρ (f.withPower (f.power * p)) = eval ρ f ^ p.num := by
    intro f member
    cases defined with
    | product each =>
      refine eval_withPower_mul (plain f member) (each f member) whole fun negative gone => ?_
      refine nonzero negative ?_
      rw [eval, evalProduct_eq, List.prod_eq_zero (List.mem_map.mpr ⟨f, member, gone⟩), mul_zero]
  refine ⟨.product fun f member => ?_, rfl, fun ρ defined nonzero => .product fun f member => ?_,
    fun ρ defined nonzero => ?_, fun f member => ?_⟩
  · obtain ⟨g, inside, rfl⟩ := List.mem_map.mp (perm.mem_iff.mp member)
    exact ((plain g inside).raised zero closed).built
  · obtain ⟨g, inside, rfl⟩ := List.mem_map.mp (perm.mem_iff.mp member)
    exact (powers defined nonzero g inside).1
  · have values : ((factors.map fun f => f.withPower (f.power * p)).map (eval ρ)) =
        (factors.map (eval ρ)).map (· ^ p.num) := by
      rw [List.map_map, List.map_map]
      exact List.map_congr_left fun f member => (powers defined nonzero f member).2
    have product : ((factors.map (eval ρ)).map (· ^ p.num)).prod =
        (factors.map (eval ρ)).prod ^ p.num := by
      induction factors.map (eval ρ) with
      | nil => simp
      | cons x rest ih => rw [List.map_cons, List.prod_cons, List.prod_cons, ih, mul_zpow]
    rw [eval, evalProduct_eq, (perm.map (eval ρ)).prod_eq, values, product, eval, evalProduct_eq,
      mul_zpow]
  · obtain ⟨g, inside, rfl⟩ :=
      List.mem_map.mp (perm.mem_iff.mp ((sortFactors_perm after).mem_iff.mp member))
    exact ⟨g, (sortFactors_perm factors).mem_iff.mpr inside, by simp⟩

include whole zero closed in
theorem raises_base {a : Expr} (formed : a.WellFormed) (built : BuiltBy scheme a)
    (number : a.isNumber = false) (product : a.isProduct = false) :
    Raises scheme a p ((a.withPower (a.power * p)).withCoeff (a.coeff ^ p.num)) := by
  obtain ⟨formedUnit, proper⟩ := formed.isFactor_unit number product
  have plain : PlainFactor scheme a.unit := ⟨formedUnit, proper, built.unit⟩
  have same : (a.withPower (a.power * p)).withCoeff (a.coeff ^ p.num) =
      (a.unit.withPower (a.unit.power * p)).withCoeff (a.coeff ^ p.num) := by
    cases a <;> rfl
  have coeff := formed.coeff_ne_zero number
  have powers {ρ : String → ℚ} (defined : Defined ρ a) (nonzero : p < 0 → eval ρ a ≠ 0) :=
    eval_withPower_mul plain (defined.withCoeff 1) whole fun negative gone =>
      nonzero negative (by rw [eval_eq_coeff_mul, gone, mul_zero])
  rw [same]
  refine ⟨((plain.raised zero closed).built).withCoeff _, (plain.raised zero closed).formed.coeff_withCoeff _,
    fun ρ defined nonzero => (powers defined nonzero).1.withCoeff _,
    fun ρ defined nonzero => ?_, fun f member => ?_⟩
  · have unit : (a.unit.withPower (a.unit.power * p)).unit =
        a.unit.withPower (a.unit.power * p) :=
      unit_of_coeff (by rw [coeff_withPower, proper.unit])
    rw [eval_withCoeff, unit, (powers defined nonzero).2, eval_eq_coeff_mul a, mul_zpow]
  · refine ⟨a.unit, ?_, ?_⟩
    · cases built with
      | number => simp [isNumber] at number
      | product => simp [isProduct] at product
      | symbol | sum => exact List.mem_singleton.mpr rfl
    · have single : f = a.unit.withPower (a.unit.power * p) := by
        cases built with
        | number => simp [isNumber] at number
        | product => simp [isProduct] at product
        | symbol | sum => exact List.mem_singleton.mp member
      rw [single, hasBaseKey_withPower]

end Powers

/-- A whole power is returned with the right value, unless that of the number in front has too many
digits or zero is raised to a power that is not positive. -/
theorem powRatWithin_built {n : Nat} {a : Expr} {p : Rat} (formed : a.WellFormed)
    (built : BuiltBy scheme a) (whole : p.den = 1)
    (closed : ∀ q, scheme.powers q → scheme.powers (q * p)) (enough : a.factors.length + 3 ≤ n) :
    (tooLarge a.coeff p ∧ powRatWithin n a p = .error (.powerTooLarge maxIntegerBits)) ∨
      (a.isZero = true ∧ p ≤ 0) ∨ ∃ r, powRatWithin n a p = .ok r ∧ Raises scheme a p r := by
  obtain ⟨n, rfl⟩ : ∃ m, n = m + 3 := ⟨n - 3, by omega⟩
  by_cases zero : p = 0
  · cases isZero : a.isZero with
    | true => exact .inr (.inl ⟨rfl, zero.le⟩)
    | false =>
      refine .inr (.inr ⟨Expr.one, ?_, .number 1, ?_, fun ρ _ _ => .number 1, fun ρ _ _ => ?_, ?_⟩)
      · unfold powRatWithin
        simp [zero, isZero]
      · simp [zero, Expr.one, Expr.coeff]
      · simp [zero, eval_one]
      · intro f member
        cases member
  by_cases one : p = 1
  · refine .inr (.inr ⟨a, ?_, built, ?_, fun ρ defined _ => defined, fun ρ _ _ => ?_,
      fun f member => ⟨f, member, rfl⟩⟩)
    · unfold powRatWithin
      simp [one]
    · simp [one]
    · simp [one]
  cases number : a.isNumber with
  | true =>
    cases built with
    | number c =>
      by_cases none : c = 0
      · by_cases negative : p < 0
        · exact .inr (.inl ⟨by simp [isZero, none], negative.le⟩)
        · refine .inr (.inr ⟨Expr.zero, ?_, .number 0, ?_, fun ρ _ _ => .number 0, fun ρ _ _ => ?_, ?_⟩)
          · unfold powRatWithin
            simp [zero, one, none, negative]
          · rw [Expr.coeff, none, zero_zpow _ (Rat.num_ne_zero.mpr zero)]
            rfl
          · rw [eval_zero, eval, none, zero_zpow _ (Rat.num_ne_zero.mpr zero)]
          · intro f member
            cases member
      · have raised : powRatWithin (n + 3) (Expr.number c) p = powNumber c p := by
          unfold powRatWithin
          simp [zero, one, none]
        rw [raised, powNumber_whole whole none]
        by_cases size : tooLarge c p
        · exact .inl ⟨size, if_pos size⟩
        · refine .inr (.inr ⟨_, if_neg size, .number _, rfl, fun ρ _ _ => .number _, fun ρ _ _ => rfl, ?_⟩)
          intro f member
          cases member
    | _ => simp [isNumber] at number
  | false =>
    cases product : a.isProduct with
    | true =>
      cases built with
      | @product c factors each =>
        have count : factors.length + 2 ≤ n + 2 := by
          have sorted := (sortFactors_perm factors).length_eq
          simp only [Expr.factors] at enough
          omega
        obtain ⟨large, small⟩ := powRatWithin_product whole zero one closed formed (.product each)
          count
        by_cases size : tooLarge c p
        · exact .inl ⟨size, large size⟩
        · obtain ⟨after, returned, perm⟩ := small size
          exact .inr (.inr ⟨_, returned, raises_product whole zero closed formed (.product each) perm⟩)
      | _ => simp [isProduct] at product
    | false =>
      have raised := powRatWithin_base (n + 1) formed built number product whole zero one
      by_cases size : tooLarge a.coeff p
      · rw [if_pos size] at raised
        exact .inl ⟨size, raised⟩
      · rw [if_neg size] at raised
        exact .inr (.inr ⟨_, raised, raises_base whole zero closed formed built number product⟩)

theorem enough_work_pow {a b : Expr} : a.factors.length + 5 ≤ workLimit a b := by
  have left := length_factors_le a
  have limit : 16 * (a.size + b.size + 2) ≤ workLimit a b := by
    unfold workLimit
    exact Nat.le_mul_of_pos_right _ (by omega)
  omega

theorem scale_one (e : Expr) : e.scale 1 = e := by
  rw [scale, if_neg one_ne_zero, mul_one, withCoeff_coeff]

theorem powRat_one (a : Expr) : a.powRat 1 = .ok a := by
  have enough : a.factors.length + 5 ≤ workLimit a a := enough_work_pow
  obtain ⟨n, limit⟩ : ∃ n, workLimit a a = n + 1 := ⟨workLimit a a - 1, by omega⟩
  rw [powRat, limit]
  unfold powRatWithin
  rw [if_neg one_ne_zero, if_pos rfl]

/-- A power of a number is taken as one. -/
theorem powRat_number {c p : ℚ} (nonzero : c ≠ 0) (present : p ≠ 0) (proper : p ≠ 1) :
    (number c).powRat p = powNumber c p := by
  obtain ⟨n, limit⟩ := enough_for_one (number c) (number c)
  rw [powRat, limit]
  unfold powRatWithin
  rw [if_neg present, if_neg proper]
  exact if_neg nonzero

section Operations

variable {a b : Expr} (formedA : a.WellFormed) (builtA : BuiltBy scheme a)
  (formedB : b.WellFormed) (builtB : BuiltBy scheme b)

include formedA builtA in
theorem powRat_built {p : Rat} (whole : p.den = 1)
    (closed : ∀ q, scheme.powers q → scheme.powers (q * p)) :
    (tooLarge a.coeff p ∧ powRat a p = .error (.powerTooLarge maxIntegerBits)) ∨
      (a.isZero = true ∧ p ≤ 0) ∨ ∃ r, powRat a p = .ok r ∧ Raises scheme a p r :=
  powRatWithin_built formedA builtA whole closed (le_trans (by omega) enough_work_pow)

include formedA builtA in
theorem pow_built {p : Rat} (whole : p.den = 1)
    (closed : ∀ q, scheme.powers q → scheme.powers (q * p)) :
    (tooLarge a.coeff p ∧ pow a (number p) = .error (.powerTooLarge maxIntegerBits)) ∨
      (a.isZero = true ∧ p ≤ 0) ∨ ∃ r, pow a (number p) = .ok r ∧ Raises scheme a p r := by
  have enough : a.factors.length + 5 ≤ workLimit a (number p) := enough_work_pow
  obtain ⟨n, limit⟩ : ∃ n, workLimit a (number p) = n + 1 := ⟨workLimit a (number p) - 1, by omega⟩
  rw [pow, limit, powWithin]
  exact powRatWithin_built formedA builtA whole closed (by omega)

include formedA builtA in
theorem inv_built (some : a.isZero = false) (closed : ∀ q, scheme.powers q → scheme.powers (q * -1)) :
    (tooLarge a.coeff (-1) ∧ inv a = .error (.powerTooLarge maxIntegerBits)) ∨
      ∃ r, inv a = .ok r ∧ Raises scheme a (-1) r := by
  unfold inv
  split
  next c =>
    have nonzero : c ≠ 0 := by simpa [isZero] using some
    refine .inr ⟨number c⁻¹, ?_, .number _, ?_, fun ρ _ _ => .number _, fun ρ _ _ => ?_, ?_⟩
    · rw [Rational.invert, if_neg nonzero]
      rfl
    · simp [Expr.coeff]
    · simp [eval]
    · intro f member
      cases member
  next =>
    rcases powRat_built formedA builtA (p := -1) rfl closed with large | ⟨zero, _⟩ | returned
    · exact .inl large
    · rw [some] at zero
      cases zero
    · exact .inr returned

structure Divides (scheme : Scheme) (a b r : Expr) : Prop where
  built : BuiltBy scheme r
  defined : ∀ ρ, Defined ρ a → Defined ρ b → eval ρ b ≠ 0 → Defined ρ r
  value : ∀ ρ, Defined ρ a → Defined ρ b → eval ρ b ≠ 0 → eval ρ r = eval ρ a / eval ρ b

include formedA builtA formedB builtB in
theorem div_built (some : b.isZero = false)
    (closed : ∀ q, scheme.powers q → scheme.powers (q * -1)) :
    (tooLarge b.coeff (-1) ∧ div a b = .error (.powerTooLarge maxIntegerBits)) ∨
      (div a b = .error .unsupported ∧ ∃ f ∈ a.factors ++ b.factors, f.hasBaseKey = false) ∨
      ∃ r, div a b = .ok r ∧ Divides scheme a b r := by
  unfold div
  simp only [some, Bool.false_eq_true, if_false]
  rcases inv_built formedB builtB some closed with ⟨size, large⟩ | ⟨inverse, inverted, raises⟩
  · rw [large]
    exact .inl ⟨size, rfl⟩
  · rw [inverted]
    right
    change (mul a inverse = _ ∧ _) ∨ ∃ r, mul a inverse = _ ∧ _
    rcases mul_built formedA (inv_wellFormed formedB inverted) builtA raises.built with
      ⟨failed, f, member, keyless⟩ | ⟨r, returned, multiplies⟩
    · refine .inl ⟨failed, ?_⟩
      rcases List.mem_append.mp member with left | right
      · exact ⟨f, List.mem_append_left _ left, keyless⟩
      · obtain ⟨g, inside, same⟩ := raises.keyed f right
        exact ⟨g, List.mem_append_right _ inside, same ▸ keyless⟩
    · refine .inr ⟨r, returned, multiplies.built, fun ρ definedA definedB nonzero => ?_,
        fun ρ definedA definedB nonzero => ?_⟩
      · exact multiplies.defined ρ definedA (raises.defined ρ definedB fun _ => nonzero)
      · rw [multiplies.value ρ definedA (raises.defined ρ definedB fun _ => nonzero),
          raises.value ρ definedB fun _ => nonzero]
        simp [div_eq_mul_inv]

end Operations

end ExactAlgebra.Expr
