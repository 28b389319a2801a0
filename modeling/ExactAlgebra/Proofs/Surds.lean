import ExactAlgebra.Proofs.ComplexValue
import ExactAlgebra.Proofs.NormalForm
import ExactAlgebra.Proofs.RealValue
import ExactAlgebra.Proofs.RootPowers
import Mathlib

/-! Arithmetic of surds. The numbers considered here are built from rational numbers, roots of integers, the
imaginary unit, and sines and cosines of one angle. Their texts tell the factors of which they are made, so
adding, multiplying and expanding them keeps the complex number that they stand for. -/
namespace ExactAlgebra.Expr
open Engine Text

/-- A root of an integer, the imaginary unit where it is admitted, or a whole power of the sine or the cosine
of the angle `m * pi`. -/
inductive SurdFactor (imaginary : Bool) (m : ℚ) : Expr → Prop
  | root {n d : ℕ} : 2 ≤ n → 2 ≤ d → SurdFactor imaginary m (symbol 1 (toString n) (mkRat 1 d))
  | unit : imaginary = true → SurdFactor imaginary m (bare "i")
  | circular {name : String} {k : ℕ} : name = "sin" ∨ name = "cos" → k ≠ 0 → m ≠ 0 →
    SurdFactor imaginary m (call 1 name [symbol m "pi" 1] k)

variable {imaginary : Bool} {m : ℚ} {ρ : Reading} {a b e f g r t u : Expr}

theorem identifier_circular {name : String} (circular : name = "sin" ∨ name = "cos") : Identifier name := by
  rcases circular with rfl | rfl <;> decide

namespace SurdFactor

theorem wellFormed (factor : SurdFactor imaginary m f) : f.WellFormed := by
  cases factor with
  | @root n d large degree => exact (IsRoot.root 1 n d one_ne_zero degree).wellFormed
  | unit => exact wellFormed_bare (by decide) (by decide)
  | @circular name k circular positive nonzero =>
    have argument : (symbol m "pi" 1).WellFormed :=
      ⟨nonzero, one_ne_zero, .inl (by decide), by decide, by decide⟩
    refine ⟨one_ne_zero, by exact_mod_cast positive, identifier_circular circular, ?_, argument, trivial⟩
    rcases circular with rfl | rfl <;> decide

theorem isFactor (factor : SurdFactor imaginary m f) : IsFactor f := by
  cases factor <;> exact ⟨rfl, rfl, rfl⟩

theorem power_pos (factor : SurdFactor imaginary m f) : 0 < f.power := by
  cases factor with
  | @root n d large degree =>
    rw [power, (mkRat_one_eq degree).1]
    have : (0 : ℚ) < d := by exact_mod_cast (by omega : 0 < d)
    positivity
  | unit => exact one_pos
  | @circular name k circular positive nonzero =>
    change (0 : ℚ) < k
    exact_mod_cast Nat.pos_of_ne_zero positive

theorem above (factor : SurdFactor imaginary m f) : (f.factorSide f.face).1 = true := by
  have positive := factor.power_pos.not_gt
  cases factor with
  | unit => decide +kernel
  | root | circular => simp only [factorSide, if_neg positive]

end SurdFactor

/-- A root is written under the root sign, or as the integer with a power sign behind it. -/
theorem text_root {n d : ℕ} (degree : 2 ≤ d) :
    (d = 2 ∧ poweredText (toString n) (toString n) (mkRat 1 d) = "sqrt(" ++ toString n ++ ")") ∨
      (poweredText (toString n) (toString n) (mkRat 1 d)).toList =
        (toString n).toList ++ powerTail (mkRat 1 d) ∧ mkRat 1 d ≠ 1 := by
  obtain ⟨inverse, num, den, -⟩ := mkRat_one_eq degree
  have one : mkRat 1 d ≠ 1 := by
    intro same
    rw [same, Rat.den_one] at den
    omega
  have positive : 0 < mkRat 1 d := Rat.num_pos.mp (by omega)
  rcases poweredText_cases (toString n) (toString n) positive with
    ⟨same, _⟩ | ⟨half, text⟩ | ⟨_, _, text⟩
  · exact absurd same one
  · refine .inl ⟨?_, text⟩
    rw [half] at den
    exact den.symm.trans half_num_den.2
  · refine .inr ⟨?_, one⟩
    rw [text, powerTail, if_neg one]
    simp

theorem side_root {n d : ℕ} (degree : 2 ≤ d) :
    (symbol 1 (toString n) (mkRat 1 d)).factorSide (symbol 1 (toString n) (mkRat 1 d)).face =
      (true, poweredText (toString n) (toString n) (mkRat 1 d)) := by
  have positive : 0 < mkRat 1 d := Rat.num_pos.mp (by rw [(mkRat_one_eq degree).2.1]; exact one_pos)
  have guarded : (symbol 1 (toString n) (mkRat 1 d)).face.guarded = toString n := baseKey_root 1 n (mkRat 1 d)
  simp only [factorSide, power, if_neg positive.not_gt, guarded]
  rfl

theorem closed_digits (n : ℕ) : Sealed isPowerSign (toString n).toList := by
  refine .of_plain fun c member => ?_
  have digit := isDigit_of_mem_toString member
  refine ⟨?_, ?_, ?_⟩
  · rintro rfl
    cases digit
  · rintro rfl
    cases digit
  · by_contra sign
    obtain rfl : c = '^' := by simpa [isPowerSign] using sign
    cases digit

/-- The front of a root: the root sign, or no name at all. -/
theorem front_root {n d : ℕ} (degree : 2 ≤ d) :
    front (poweredText (toString n) (toString n) (mkRat 1 d)) = some ("sqrt".toList, some '(') ∨
      front (poweredText (toString n) (toString n) (mkRat 1 d)) = none := by
  rcases text_root (n := n) degree with ⟨-, text⟩ | ⟨text, -⟩
  · left
    have shape : ("sqrt(" ++ toString n ++ ")").toList = "sqrt".toList ++ '(' :: ((toString n).toList ++ [')']) := by
      simp
    rw [text, front, shape, takeName?_append_cons (by decide : Identifier "sqrt") (by decide)]
    rfl
  · right
    obtain ⟨c, rest, shape, digit⟩ := head_toString n
    have other : startsName c = false := by
      have mark := isMark_isDigit digit
      simp only [isMark, Bool.or_eq_false_iff] at mark
      exact mark.2
    rw [front, text, shape]
    simp [takeName?, other]

theorem toString_nat_inj {n k : ℕ} (same : toString n = toString k) : n = k := by
  have value := congrArg integerOf same
  rw [integerOf_toString, integerOf_toString] at value
  exact_mod_cast value

/-- The text of a root tells the integer and the degree. -/
theorem root_inj {n d k l : ℕ} (degree : 2 ≤ d) (degree' : 2 ≤ l)
    (same : poweredText (toString n) (toString n) (mkRat 1 d) =
      poweredText (toString k) (toString k) (mkRat 1 l)) : n = k ∧ d = l := by
  have apart {i j : ℕ} {tail : List Char} : ("sqrt(" ++ toString i ++ ")").toList ≠ (toString j).toList ++ tail := by
    obtain ⟨c, rest, shape, digit⟩ := head_toString j
    rw [shape]
    intro same
    have heads := congrArg List.head? same
    obtain rfl : 's' = c := by simpa using heads
    cases digit
  have positive {d : ℕ} (degree : 2 ≤ d) : 0 < mkRat 1 d :=
    Rat.num_pos.mp (by rw [(mkRat_one_eq degree).2.1]; exact one_pos)
  rcases text_root (n := n) degree with ⟨rfl, text⟩ | ⟨text, -⟩ <;>
    rcases text_root (n := k) degree' with ⟨rfl, text'⟩ | ⟨text', -⟩
  · rw [text, text'] at same
    have lists := congrArg String.toList same
    simp only [String.toList_append] at lists
    exact ⟨toString_nat_inj (String.toList_inj.mp
      (List.append_cancel_left (List.append_cancel_right lists))), rfl⟩
  · rw [← same, text] at text'
    exact absurd text' apart
  · rw [same, text'] at text
    exact absurd text apart
  · rw [same, text'] at text
    obtain ⟨bases, powers⟩ := base_of_powered (positive degree') (positive degree) (closed_digits k)
      (closed_digits n) text
    refine ⟨(toString_nat_inj (String.toList_inj.mp bases)).symm, ?_⟩
    rw [← (mkRat_one_eq degree).2.2.1, ← (mkRat_one_eq degree').2.2.1, powers]

namespace SurdFactor

theorem front_circular {name : String} {k : ℕ}
    (factor : SurdFactor imaginary m (call 1 name [symbol m "pi" 1] k)) :
    front ((call 1 name [symbol m "pi" 1] k).factorSide (call 1 name [symbol m "pi" 1] k).face).2 =
      some (name.toList, some '(') :=
  front_call factor.wellFormed (Rat.den_natCast k)

/-- The text of a factor tells the factor. -/
theorem eq_of_side_eq (factorF : SurdFactor imaginary m f) (factorG : SurdFactor imaginary m g)
    (same : f.factorSide f.face = g.factorSide g.face) : f = g := by
  have unit : front ((bare "i").factorSide (bare "i").face).2 = some ("i".toList, none) := by decide +kernel
  have fronts := congrArg (fun side : Bool × String => front side.2) same
  have formedF := factorF.wellFormed
  have formedG := factorG.wellFormed
  have calledF := factorF
  have calledG := factorG
  cases factorF with
  | @root n d large degree =>
    rw [side_root degree] at same fronts
    cases factorG with
    | @root k l large' degree' =>
      rw [side_root degree'] at same
      obtain ⟨rfl, rfl⟩ := root_inj degree degree' (congrArg Prod.snd same)
      rfl
    | unit =>
      simp only [unit] at fronts
      rcases front_root (n := n) degree with shown | shown <;> cases shown.symm.trans fronts
    | @circular name k circular positive nonzero =>
      simp only [calledG.front_circular] at fronts
      rcases front_root (n := n) degree with shown | shown
      · rcases circular with rfl | rfl <;> cases shown.symm.trans fronts
      · cases shown.symm.trans fronts
  | unit =>
    simp only [unit] at fronts
    cases factorG with
    | @root k l large' degree' =>
      rw [side_root degree'] at fronts
      rcases front_root (n := k) degree' with shown | shown <;> cases fronts.trans shown
    | unit => rfl
    | circular =>
      simp only [calledG.front_circular] at fronts
      cases congrArg (Option.map Prod.snd) fronts
  | @circular name k circular positive nonzero =>
    simp only [calledF.front_circular] at fronts
    cases factorG with
    | @root k l large' degree' =>
      rw [side_root degree'] at fronts
      rcases front_root (n := k) degree' with shown | shown
      · rcases circular with rfl | rfl <;> cases fronts.trans shown
      · cases fronts.trans shown
    | unit =>
      rw [unit] at fronts
      cases congrArg (Option.map Prod.snd) fronts
    | @circular name' k' circular' positive' nonzero' =>
      obtain ⟨bases, powers⟩ := guarded_of_side_eq formedF formedG rfl rfl (Rat.den_natCast k)
        (Rat.den_natCast k') (closed_guarded_call formedF) (closed_guarded_call formedG) same
      obtain ⟨rfl, -⟩ := guarded_call_inj (identifier_circular circular) (identifier_circular circular') bases
      have powers : (k : ℚ) = k' := powers
      rw [powers]

end SurdFactor

/-- A number, a factor with a coefficient, or a product of such factors. -/
def SurdTerm (imaginary : Bool) (m : ℚ) (e : Expr) : Prop := ∀ f ∈ e.factors, SurdFactor imaginary m f

theorem complexValue_factors (e : Expr) :
    complexValue ρ e = e.coeff * (e.factors.map (complexValue ρ)).prod := by
  cases e with
  | number c => simp [complexValue, factors, coeff]
  | product c fs =>
    rw [complexValue, complexValues_eq, factors, ((sortFactors_perm fs).map (complexValue ρ)).prod_eq, coeff]
  | _ => simpa [factors] using (addsUp_complexValue ρ).unit _

theorem complexValue_mergedFactors (e : Expr) :
    complexValue ρ e = e.coeff * ((mergedFactors e).map (complexValue ρ)).prod := by
  cases e with
  | number c => simp [complexValue, mergedFactors, coeff]
  | product c fs => rw [complexValue, complexValues_eq, mergedFactors, coeff]
  | _ => simpa [mergedFactors] using (addsUp_complexValue ρ).unit _

namespace SurdTerm

theorem flat (term : SurdTerm imaginary m t) : t.isPlainSum = false := by
  cases t with
  | sum c terms p => cases term (sum 1 terms p) (List.mem_singleton.mpr rfl)
  | _ => rfl

theorem withCoeff (term : SurdTerm imaginary m t) (c : ℚ) : SurdTerm imaginary m (t.withCoeff c) := by
  intro f member
  rw [factors_withCoeff] at member
  exact term f member

/-- All factors stand above the line. -/
theorem fractionEntry_eq (term : SurdTerm imaginary m t) :
    fractionEntry (t.factors.map fun f => f.factorSide f.face) =
      .fraction (t.factors.map fun f => (f.factorSide f.face).2) [] := by
  have above : ∀ side ∈ t.factors.map (fun f => f.factorSide f.face), side.1 = true := by
    intro side member
    obtain ⟨f, inside, rfl⟩ := List.mem_map.mp member
    exact (term f inside).above
  have below : (t.factors.map fun f => f.factorSide f.face).filter (!·.1) = [] :=
    List.filter_eq_nil_iff.mpr fun side member => by simp [above side member]
  rw [fractionEntry, List.filter_eq_self.mpr above, below, List.map_map]
  rfl

/-- Terms with the same key have the same factors. -/
theorem value_eq_of_termKey_eq (termT : SurdTerm imaginary m t) (termU : SurdTerm imaginary m u)
    (formedT : t.WellFormed) (formedU : u.WellFormed) (same : t.termKey = u.termKey) :
    complexValue ρ t.unit = complexValue ρ u.unit := by
  have numberOf {e : Expr} (numeric : e.isNumber = true) : e.unit = number 1 ∧ e.termKey = "#" := by
    cases e with
    | number c => exact ⟨rfl, rfl⟩
    | _ => cases numeric
  cases properT : t.isNumber with
  | true =>
    cases properU : u.isNumber with
    | true => rw [(numberOf properT).1, (numberOf properU).1]
    | false =>
      rw [(numberOf properT).2] at same
      exact absurd same.symm (termKey_ne_number formedU termU.flat properU)
  | false =>
    cases properU : u.isNumber with
    | true =>
      rw [(numberOf properU).2] at same
      exact absurd same (termKey_ne_number formedT termT.flat properT)
    | false =>
      have layouts := (alike_of_termKey_eq formedT formedU termT.flat termU.flat properT properU same).2
      rw [layout_factors formedT termT.flat properT, layout_factors formedU termU.flat properU] at layouts
      rw [termT.fractionEntry_eq, termU.fractionEntry_eq] at layouts
      have texts : (t.factors.map fun f => (f.factorSide f.face).2) =
          u.factors.map fun f => (f.factorSide f.face).2 := by simpa using layouts
      have equal : t.factors.map id = u.factors.map id :=
        map_eq_map_of_keys texts fun f inF g inG text =>
          (termT f inF).eq_of_side_eq (termU g inG) (Prod.ext ((termT f inF).above.trans (termU g inG).above.symm) text)
      rw [List.map_id, List.map_id] at equal
      rw [complexValue_factors, complexValue_factors u.unit, unit, unit, factors_withCoeff, factors_withCoeff,
        formedT.coeff_withCoeff, formedU.coeff_withCoeff, equal]

end SurdTerm

/-- A power of a positive number is a root of the whole power. -/
theorem powNumber_isRootOf {v q : ℚ} (positive : 0 < v) (returned : powNumber v q = .ok r) :
    IsRootOf (v ^ q.num) q.den r := by
  by_cases whole : q.den = 1
  · rw [powNumber_whole whole positive.ne'] at returned
    obtain ⟨_, returned⟩ := Outcome.passed returned
    cases returned
    rw [whole]
    exact .number (zpow_pos positive _) (pow_one _)
  · exact ((powNumber_cases positive.ne' whole returned).resolve_right
      fun other => positive.not_gt other.1).2

theorem complexValue_powNumber {v q : ℚ} (positive : 0 < v) (returned : powNumber v q = .ok r) :
    complexValue ρ r = (((v : ℝ) ^ (q : ℝ) : ℝ) : ℂ) := by
  have positiveR : (0 : ℝ) < v := by exact_mod_cast positive
  rw [(powNumber_isRootOf positive returned).complexValue q.den_nz, Rat.cast_zpow, ← Real.rpow_intCast,
    ← Real.rpow_mul positiveR.le, Rat.cast_def q, div_eq_mul_inv]

theorem surdFactor_powNumber {v q : ℚ} (positive : 0 < v) (returned : powNumber v q = .ok r) :
    ∀ f ∈ mergedFactors r, SurdFactor imaginary m f := by
  intro f member
  have root := powNumber_isRootOf positive returned
  by_cases whole : q.den = 1
  · rw [powNumber_whole whole positive.ne'] at returned
    obtain ⟨_, returned⟩ := Outcome.passed returned
    cases returned
    cases member
  · cases root with
    | number => cases member
    | root _ large =>
      obtain rfl := List.mem_singleton.mp member
      have := q.den_pos
      exact .root large (by omega)

/-- Powers of one base are merged by adding their exponents. -/
theorem mergeAlike_eq (plainF : f.isExponential = false) (plainG : g.isExponential = false) (k : ℕ) :
    mergeAlike k g f = powWithin k (baseOf g) (number (g.power + f.power)) := by
  have exponent {e : Expr} (plain : e.isExponential = false) : exponentOf e = number e.power := by
    cases e with
    | exponential => cases plain
    | _ => rfl
  rw [mergeAlike, exponent plainF, exponent plainG, add_numbers]
  rfl

theorem powRatWithin_of_powWithin {k : ℕ} {p : ℚ} (returned : powWithin k a (number p) = .ok r) :
    ∃ j, powRatWithin (j + 1) a p = .ok r := by
  obtain _ | _ | j := k
  · cases returned
  · cases returned
  · exact ⟨j, returned⟩

namespace SurdFactor

structure Merges (imaginary : Bool) (m : ℚ) (g f merged : Expr) : Prop where
  factors : ∀ h ∈ mergedFactors merged, SurdFactor imaginary m h
  value : ∀ ρ, complexValue ρ merged = complexValue ρ g * complexValue ρ f

theorem merges_roots {n d l k : ℕ} (large : 2 ≤ n) (degree : 2 ≤ d) (degree' : 2 ≤ l) {merged : Expr}
    (returned : mergeAlike k (symbol 1 (toString n) (mkRat 1 d)) (symbol 1 (toString n) (mkRat 1 l)) =
      .ok merged) :
    Merges imaginary m (symbol 1 (toString n) (mkRat 1 d)) (symbol 1 (toString n) (mkRat 1 l)) merged := by
  have positive : (0 : ℚ) < n := by exact_mod_cast (by omega : 0 < n)
  have positiveR : (0 : ℝ) < n := by exact_mod_cast positive
  have base : baseOf (symbol 1 (toString n) (mkRat 1 d)) = number n := by
    rw [baseOf, if_pos (isIntegerText_toString n), integerOf_toString, Int.cast_natCast]
  have value (ρ : Reading) : complexValue ρ (symbol 1 (toString n) (mkRat 1 d)) *
      complexValue ρ (symbol 1 (toString n) (mkRat 1 l)) =
        (((n : ℝ) ^ ((mkRat 1 d + mkRat 1 l : ℚ) : ℝ) : ℝ) : ℂ) := by
    rw [complexValue_root, complexValue_root, (mkRat_one_eq degree).1, (mkRat_one_eq degree').1]
    push_cast [Real.rpow_add positiveR]
    ring
  rw [mergeAlike_eq rfl rfl, base] at returned
  simp only [Expr.power] at returned
  obtain ⟨j, returned⟩ := powRatWithin_of_powWithin returned
  have power {d : ℕ} (degree : 2 ≤ d) : 0 < mkRat 1 d := by
    rw [(mkRat_one_eq degree).1]
    positivity
  have powers : 0 < mkRat 1 d + mkRat 1 l := add_pos (power degree) (power degree')
  unfold powRatWithin at returned
  rw [if_neg powers.ne'] at returned
  split at returned
  next one =>
    cases returned
    refine ⟨by simp [mergedFactors], fun ρ => ?_⟩
    rw [value, one]
    simp [complexValue]
  next =>
    dsimp only at returned
    rw [if_neg positive.ne'] at returned
    refine ⟨surdFactor_powNumber positive returned, fun ρ => ?_⟩
    rw [value, complexValue_powNumber positive returned, Rat.cast_natCast]

theorem merges_unit {k : ℕ} {merged : Expr} (returned : mergeAlike k (bare "i") (bare "i") = .ok merged) :
    Merges imaginary m (bare "i") (bare "i") merged := by
  rw [mergeAlike_eq rfl rfl] at returned
  have twice : (bare "i").power + (bare "i").power = (2 : ℕ) := by norm_num [bare, power]
  have base : baseOf (bare "i") = symbol 1 "i" 1 := rfl
  rw [twice, base] at returned
  obtain ⟨_ | j, returned⟩ := powRatWithin_of_powWithin returned
  · simp [powRatWithin, powNumber_one, mulWithin, show isIntegerText "i" = false by decide, bind,
      Except.bind] at returned
  have gives := raisesTo_i.givesNumber le_rfl one_ne_zero j
  rw [one_pow, one_mul] at gives
  rcases gives with found | refused
  · obtain rfl : number (-1) = merged := Except.ok.inj (found.symm.trans returned)
    refine ⟨by simp [mergedFactors], fun ρ => ?_⟩
    simp [complexValue, bare, name_i]
  · cases refused.symm.trans returned

theorem merges_circular {name : String} {i j k : ℕ} (circular : name = "sin" ∨ name = "cos") (nonzero : m ≠ 0)
    (positive : i ≠ 0) {merged : Expr}
    (returned : mergeAlike k (call 1 name [symbol m "pi" 1] i) (call 1 name [symbol m "pi" 1] j) = .ok merged) :
    Merges imaginary m (call 1 name [symbol m "pi" 1] i) (call 1 name [symbol m "pi" 1] j) merged := by
  have total : ((i : ℚ) + j) = ((i + j : ℕ) : ℚ) := by push_cast; ring
  have some : ((i + j : ℕ) : ℚ) ≠ 0 := by exact_mod_cast (by omega : i + j ≠ 0)
  rw [mergeAlike_eq rfl rfl] at returned
  change powWithin k (inert name [symbol m "pi" 1]) (number ((i : ℚ) + j)) = .ok merged at returned
  rw [total] at returned
  obtain ⟨l, returned⟩ := powRatWithin_of_powWithin returned
  obtain rfl : call 1 name [symbol m "pi" 1] (i + j : ℕ) = merged := by
    unfold powRatWithin at returned
    rw [if_neg some] at returned
    split at returned
    next one =>
      rw [one]
      exact Except.ok.inj returned
    next =>
      simp only [inert, power, one_mul, if_neg some, coeff, powNumber_one] at returned
      change mulWithin l one (call 1 name [symbol m "pi" 1] (i + j : ℕ)) = .ok merged at returned
      obtain _ | l := l
      · cases returned
      · rw [one, mulWithin_number l one_ne_zero rfl] at returned
        simpa [scale, withCoeff, coeff] using returned
  refine ⟨fun h member => ?_, fun ρ => ?_⟩
  · obtain rfl := List.mem_singleton.mp member
    exact .circular circular (by omega) nonzero
  · simp only [complexValue, Rat.cast_natCast, Complex.cpow_natCast, pow_add]
    ring

/-- Like factors are roots of one integer, the imaginary unit, or powers of one function. -/
theorem merges (factorG : SurdFactor imaginary m g) (factorF : SurdFactor imaginary m f)
    (same : f.baseKey = g.baseKey) {k : ℕ} {merged : Expr} (returned : mergeAlike k g f = .ok merged) :
    Merges imaginary m g f merged := by
  have unit : (bare "i").baseKey = "i" := by decide
  have opens {name : String} {i : ℕ} : '(' ∈ (call 1 name [symbol m "pi" 1] i).baseKey.toList := by
    change '(' ∈ (call 1 name [symbol m "pi" 1] i).face.guarded.toList
    rw [guarded_call]
    simp
  cases factorG with
  | @root n d large degree =>
    cases factorF with
    | @root k l large' degree' =>
      rw [baseKey_root, baseKey_root] at same
      obtain rfl := toString_nat_inj same
      exact merges_roots large degree degree' returned
    | unit =>
      rw [baseKey_root, unit] at same
      exact absurd same.symm (toString_ne_of_mem (c := 'i') (by decide) (by decide))
    | circular =>
      rw [baseKey_root] at same
      exact absurd same.symm (toString_ne_of_mem opens (by decide))
  | unit admitted =>
    cases factorF with
    | root =>
      rw [baseKey_root, unit] at same
      exact absurd same (toString_ne_of_mem (c := 'i') (by decide) (by decide))
    | unit => exact merges_unit returned
    | @circular name i =>
      rw [unit] at same
      have inside := @opens name i
      rw [same] at inside
      exact absurd inside (by decide)
  | @circular name i circular positive nonzero =>
    cases factorF with
    | root =>
      rw [baseKey_root] at same
      exact absurd same (toString_ne_of_mem opens (by decide))
    | unit =>
      have inside := @opens name i
      rw [← same, unit] at inside
      exact absurd inside (by decide)
    | @circular name' j circular' positive' =>
      have bases : (call 1 name' [symbol m "pi" 1] j).face.guarded =
        (call 1 name [symbol m "pi" 1] i).face.guarded := same
      obtain ⟨rfl, -⟩ := guarded_call_inj (identifier_circular circular') (identifier_circular circular) bases
      exact merges_circular circular nonzero positive returned

end SurdFactor

/-- Merging keeps the product of the factors. -/
theorem surdFactors_mergeWithin {n : ℕ} {pending : List Expr} {factors merged : List (String × Expr)} {c d : ℚ}
    (each : ∀ f ∈ pending, SurdFactor imaginary m f) (before : ∀ f ∈ factors, SurdFactor imaginary m f.2)
    (keyed : ∀ f ∈ factors, f.1 = f.2.baseKey) (returned : mergeWithin n pending factors c = .ok (merged, d)) :
    (∀ f ∈ merged, SurdFactor imaginary m f.2) ∧
      d * (merged.map fun f => complexValue ρ f.2).prod =
        c * (pending.map (complexValue ρ)).prod * (factors.map fun f => complexValue ρ f.2).prod := by
  induction n generalizing pending factors c with
  | zero =>
    cases pending with
    | nil =>
      cases returned
      exact ⟨before, by simp⟩
    | cons => cases returned
  | succ n ih =>
    cases pending with
    | nil =>
      cases returned
      exact ⟨before, by simp⟩
    | cons f pending =>
      have factorF := each f List.mem_cons_self
      have eachRest : ∀ g ∈ pending, SurdFactor imaginary m g := fun g later => each g (List.mem_cons_of_mem _ later)
      obtain ⟨-, ⟨-, returned⟩ | ⟨g, others, exponent, power, found, added, raised, returned⟩⟩ :=
        mergeWithin_cons returned
      · have later : ∀ h ∈ factors ++ [(f.baseKey, f)], SurdFactor imaginary m h.2 ∧ h.1 = h.2.baseKey := by
          intro h member
          rcases List.mem_append.mp member with old | new
          · exact ⟨before h old, keyed h old⟩
          · obtain rfl := List.mem_singleton.mp new
            exact ⟨factorF, rfl⟩
        obtain ⟨after, value⟩ := ih eachRest (fun h member => (later h member).1)
          (fun h member => (later h member).2) returned
        refine ⟨after, value.trans ?_⟩
        simp only [List.map_append, List.map_cons, List.map_nil, List.prod_append, List.prod_cons, List.prod_nil]
        ring
      · obtain ⟨perm, sub⟩ := removeFactor_some found
        have inside : (f.baseKey, g) ∈ factors := perm.mem_iff.mpr List.mem_cons_self
        have alike : mergeAlike n g f = .ok power := by
          rw [mergeAlike, added]
          exact raised
        have merges := (before _ inside).merges factorF (keyed _ inside) alike
        have next : ∀ h ∈ pending ++ mergedFactors power, SurdFactor imaginary m h := by
          intro h member
          rcases List.mem_append.mp member with old | new
          · exact eachRest h old
          · exact merges.factors h new
        obtain ⟨after, value⟩ := ih next (fun h member => before h (sub.subset member))
          (fun h member => keyed h (sub.subset member)) returned
        refine ⟨after, value.trans ?_⟩
        have split := merges.value ρ
        rw [complexValue_mergedFactors power] at split
        rw [(perm.map fun h => complexValue ρ h.2).prod_eq, List.map_append, List.prod_append, List.map_cons,
          List.map_cons, List.prod_cons, List.prod_cons, Rat.cast_mul]
        linear_combination (c : ℂ) * (pending.map (complexValue ρ)).prod *
          (others.map fun h => complexValue ρ h.2).prod * split

theorem complexValue_ofFactors {factors : List Expr} (unit : ∀ f ∈ factors, f.coeff = 1) (c : ℚ) :
    complexValue ρ (ofFactors factors c) = c * (factors.map (complexValue ρ)).prod := by
  unfold ofFactors
  split
  next zeroed => simp [zeroed, zero, complexValue]
  next =>
    split
    · simp [complexValue]
    next f =>
      rw [(addsUp_complexValue ρ).withCoeff, unit_of_coeff (unit f List.mem_cons_self), List.map_singleton,
        List.prod_singleton]
    · rw [complexValue, complexValues_eq]

namespace SurdTerm

theorem scale (term : SurdTerm imaginary m t) (c : ℚ) : SurdTerm imaginary m (t.scale c) :=
  fun f member => term f (mem_factors_scale member)

/-- The product of two terms is a term, and has the product of their values. -/
theorem mul (termA : SurdTerm imaginary m a) (termB : SurdTerm imaginary m b) (returned : mul a b = .ok r) :
    SurdTerm imaginary m r ∧ complexValue ρ r = complexValue ρ a * complexValue ρ b := by
  obtain ⟨n, limit⟩ := enough_for_one a b
  rw [Expr.mul, limit] at returned
  unfold mulWithin at returned
  split at returned
  next vanishes =>
    cases returned
    refine ⟨by simp [SurdTerm, zero, Expr.factors], ?_⟩
    rw [(addsUp_complexValue ρ).of_isZero rfl]
    rcases Bool.or_eq_true_iff.mp vanishes with left | right
    · rw [(addsUp_complexValue ρ).of_isZero left, zero_mul]
    · rw [(addsUp_complexValue ρ).of_isZero right, mul_zero]
  split at returned
  next c b =>
    cases returned
    exact ⟨termB.scale c, by rw [complexValue_scale, complexValue]⟩
  next c _ _ =>
    cases returned
    exact ⟨termA.scale c, by rw [complexValue_scale, complexValue, mul_comm]⟩
  next =>
    obtain ⟨⟨merged, d⟩, found, returned⟩ := Outcome.bind_ok returned
    cases returned
    have each : ∀ f ∈ a.factors ++ b.factors, SurdFactor imaginary m f := by
      intro f member
      rcases List.mem_append.mp member with left | right
      · exact termA f left
      · exact termB f right
    obtain ⟨factor, value⟩ := surdFactors_mergeWithin (ρ := ρ) each (by simp) (by simp) found
    have proper : ∀ f ∈ merged.map (·.2), SurdFactor imaginary m f := by
      intro f member
      obtain ⟨g, inside, rfl⟩ := List.mem_map.mp member
      exact factor g inside
    refine ⟨fun f member =>
      proper f (mem_of_mem_factors_ofFactors (fun g inside => (proper g inside).isFactor) member), ?_⟩
    rw [complexValue_ofFactors fun f member => (proper f member).isFactor.unit, List.map_map,
      complexValue_factors a, complexValue_factors b]
    change (d : ℂ) * (merged.map fun f => complexValue ρ f.2).prod = _
    rw [value, List.map_append, List.prod_append, List.map_nil, List.prod_nil, Rat.cast_mul]
    ring

end SurdTerm

inductive Surd (imaginary : Bool) (m : ℚ) : Expr → Prop
  | term {t : Expr} : SurdTerm imaginary m t → Surd imaginary m t
  | sum {c : ℚ} {terms : List Expr} : (∀ t ∈ terms, Surd imaginary m t) → Surd imaginary m (sum c terms 1)

namespace Surd

theorem number (c : ℚ) : Surd imaginary m (number c) := .term (by simp [SurdTerm, Expr.factors])

theorem terms {c p : ℚ} {terms : List Expr} (surd : Surd imaginary m (Expr.sum c terms p)) :
    ∀ t ∈ terms, Surd imaginary m t := by
  cases surd with
  | term term => cases term (Expr.sum 1 terms p) (List.mem_singleton.mpr rfl)
  | sum each => exact each

theorem withCoeff (surd : Surd imaginary m e) (c : ℚ) : Surd imaginary m (e.withCoeff c) := by
  cases surd with
  | term term => exact .term (term.withCoeff c)
  | sum each => exact .sum each

theorem scale (surd : Surd imaginary m e) (c : ℚ) : Surd imaginary m (e.scale c) := by
  unfold Expr.scale
  split
  · exact .number 0
  · exact surd.withCoeff _

theorem surdTerm (surd : Surd imaginary m t) (flat : t.isPlainSum = false) : SurdTerm imaginary m t := by
  cases surd with
  | term term => exact term
  | sum => cases flat

theorem keptByAddition : KeptByAddition (Surd imaginary m) where
  number := number
  withCoeff surd c := surd.withCoeff c
  sum each _ := .sum each
  terms surd := surd.terms

/-- The sum of two such numbers is one, and has the sum of their values. -/
theorem add (surdA : Surd imaginary m a) (surdB : Surd imaginary m b) (formedA : a.WellFormed)
    (formedB : b.WellFormed) (returned : add a b = .ok r) :
    Surd imaginary m r ∧ complexValue ρ r = complexValue ρ a + complexValue ρ b := by
  refine ⟨keptByAddition.add formedA formedB surdA surdB returned, ?_⟩
  refine (addsUp_complexValue ρ).add (Surd imaginary m) withCoeff terms ?_ formedA formedB surdA surdB returned
  intro t u termT termU surdT surdU keys
  have same := ((surdT.surdTerm termT.flat).withCoeff 1).value_eq_of_termKey_eq (ρ := ρ)
    ((surdU.surdTerm termU.flat).withCoeff 1) termT.formed termU.formed keys
  rwa [← unit, ← unit, unit_unit, unit_unit] at same

end Surd

/-- A well-formed expression of that kind which stands for the complex number. -/
structure SurdOf (imaginary : Bool) (m : ℚ) (ρ : Reading) (z : ℂ) (e : Expr) : Prop where
  formed : e.WellFormed
  surd : Surd imaginary m e
  value : complexValue ρ e = z

variable {context : Context} {z w : ℂ}

namespace SurdOf

theorem number (c : ℚ) : SurdOf imaginary m ρ c (number c) := ⟨trivial, .number c, by simp [complexValue]⟩

theorem zero : SurdOf imaginary m ρ 0 zero := ⟨trivial, .number 0, by simp [Expr.zero, complexValue]⟩

theorem scale (stands : SurdOf imaginary m ρ z e) (c : ℚ) : SurdOf imaginary m ρ (c * z) (e.scale c) :=
  ⟨stands.formed.scale c, stands.surd.scale c, by rw [complexValue_scale, stands.value]⟩

theorem neg (stands : SurdOf imaginary m ρ z e) : SurdOf imaginary m ρ (-z) e.neg :=
  ⟨stands.formed.neg, stands.surd.withCoeff _, by rw [complexValue_neg, stands.value]⟩

theorem add (standsA : SurdOf imaginary m ρ z a) (standsB : SurdOf imaginary m ρ w b)
    (returned : add a b = .ok r) : SurdOf imaginary m ρ (z + w) r := by
  obtain ⟨surd, value⟩ := standsA.surd.add (ρ := ρ) standsB.surd standsA.formed standsB.formed returned
  exact ⟨add_wellFormed standsA.formed standsB.formed returned, surd,
    by rw [value, standsA.value, standsB.value]⟩

/-- The terms over which a product is distributed, and the number left out of them. -/
theorem terms (stands : SurdOf imaginary m ρ z e) :
    (∀ t ∈ e.terms, t.WellFormed ∧ SurdTerm imaginary m t) ∧
      z = (if e.isPlainSum then e.coeff else 1 : ℚ) * (e.terms.map (complexValue ρ)).sum := by
  constructor
  · intro t member
    obtain ⟨formed, single⟩ := stands.formed.terms t member
    exact ⟨formed, (forall_terms Surd.terms stands.surd t member).surdTerm single⟩
  · rw [← stands.value]
    exact (addsUp_complexValue ρ).terms e

/-- Distributing multiplies the values. -/
theorem returns_distribute (standsA : SurdOf imaginary m ρ z a) (standsB : SurdOf imaginary m ρ w b) :
    Returns context (distribute a b) (SurdOf imaginary m ρ (z * w)) := by
  obtain ⟨termsA, valueA⟩ := standsA.terms
  obtain ⟨termsB, valueB⟩ := standsB.terms
  unfold distribute
  refine Meets.bind _ (meets_termProducts (SurdOf imaginary m ρ) (complexValue ρ) .zero
    fun x left y right q total stands => ?_) fun total stands => Meets.pure ?_
  · refine Meets.bind _ (Meets.anyway _) fun _ _ => ?_
    refine Meets.bind (SurdOf imaginary m ρ (complexValue ρ x * complexValue ρ y))
      (Returns.lift fun product multiplied => ?_) fun product times => Returns.lift fun r added => stands.add times added
    obtain ⟨formedX, termX⟩ := termsA x left
    obtain ⟨formedY, termY⟩ := termsB y right
    obtain ⟨term, value⟩ := termX.mul (ρ := ρ) termY multiplied
    exact ⟨mul_wellFormed formedX formedY multiplied, .term term, value⟩
  have scaled := stands.scale ((if a.isPlainSum then a.coeff else 1) * (if b.isPlainSum then b.coeff else 1))
  rw [Rat.cast_mul, mul_mul_mul_comm, ← valueA, ← valueB] at scaled
  exact scaled

end SurdOf

/-- A product is expanded factor by factor. -/
theorem returns_expandTree_product {factors : List Expr} (c : ℚ)
    (each : ∀ f ∈ factors, Returns context (expandTree f) (SurdOf imaginary m ρ (complexValue ρ f))) :
    Returns context (expandTree (product c factors)) (SurdOf imaginary m ρ (complexValue ρ (product c factors))) := by
  have perm := sortFactors_perm factors
  rw [expandTree_product, complexValue, complexValues_eq, ← (perm.map (complexValue ρ)).prod_eq]
  refine Meets.foldlM_prod (SurdOf imaginary m ρ) (complexValue ρ) (.number c) fun total result stands f member => ?_
  exact Meets.bind _ (each f (perm.mem_iff.mp member)) fun g expanded => stands.returns_distribute expanded

theorem expandTree_circular (c : ℚ) (name : String) (p : ℚ) :
    expandTree (call c name [symbol m "pi" 1] p) = pure (call c name [symbol m "pi" 1] p) := by
  simp [expandTree, expandAll]

theorem SurdFactor.returns_expandTree (factor : SurdFactor imaginary m f) :
    Returns context (expandTree f) (SurdOf imaginary m ρ (complexValue ρ f)) := by
  have only : ∀ g ∈ f.factors, g = f := by cases factor <;> exact fun g member => List.mem_singleton.mp member
  have stands : SurdOf imaginary m ρ (complexValue ρ f) f :=
    ⟨factor.wellFormed, .term fun g member => only g member ▸ factor, rfl⟩
  cases factor with
  | root | unit => exact Meets.pure stands
  | circular =>
    rw [expandTree_circular]
    exact Meets.pure stands

/-- Expanding such an expression keeps its value. -/
theorem Surd.returns_expandTree (surd : Surd imaginary m e) (formed : e.WellFormed) :
    Returns context (expandTree e) (SurdOf imaginary m ρ (complexValue ρ e)) := by
  induction surd with
  | @term t term =>
    have stands : SurdOf imaginary m ρ (complexValue ρ t) t := ⟨formed, .term term, rfl⟩
    cases t with
    | number | symbol => exact Meets.pure stands
    | call c name args p =>
      cases term (call 1 name args p) (List.mem_singleton.mpr rfl) with
      | circular =>
        rw [expandTree_circular]
        exact Meets.pure stands
    | product c factors =>
      exact returns_expandTree_product c fun f member =>
        (term f ((sortFactors_perm factors).mem_iff.mpr member)).returns_expandTree
    | sum c terms p => cases term (Expr.sum 1 terms p) (List.mem_singleton.mpr rfl)
    | exponential c base exponent => cases term (exponential 1 base exponent) (List.mem_singleton.mpr rfl)
    | foreign => exact formed.elim
  | @sum c terms each ih =>
    have formedTerms := allWellFormed_iff.mp formed.2.2.2
    have total : Returns context (terms.foldlM (fun total t => do Expr.add total (← expandTree t)) zero)
        (SurdOf imaginary m ρ (0 + (terms.map (complexValue ρ)).sum)) := by
      refine Meets.foldlM_sum _ _ .zero fun value sum stands t member => ?_
      exact Meets.bind _ (ih t member (formedTerms t member)) fun r expanded =>
        Returns.lift fun s added => stands.add expanded added
    unfold expandTree
    rw [expandSum_eq]
    refine Meets.bind _ total fun inner stands => ?_
    refine Meets.bind (· = inner) (Meets.pure rfl) ?_
    rintro _ rfl
    refine Meets.pure ?_
    have scaled := stands.scale c
    rwa [zero_add, ← (addsUp_complexValue ρ).sum] at scaled

end ExactAlgebra.Expr
