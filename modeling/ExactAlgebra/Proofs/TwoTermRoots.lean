import ExactAlgebra.Proofs.CircleRoots
import ExactAlgebra.Proofs.Occurrence
import ExactAlgebra.Proofs.Surds
import Mathlib

/-! All roots of a polynomial of two terms. Their values lie on a circle at equal angles; where the sine of an
angle vanishes, the imaginary unit does not occur in the root, and everywhere else the root is not real. -/
namespace ExactAlgebra
open Engine ExactAlgebra.Expr

variable {context : Context} {ρ : Reading} {imaginary : Bool} {m q : ℚ} {e r : Expr}

/-- Sine and cosine stand for the real functions. -/
structure Reading.KnowsCircle (ρ : Reading) : Prop where
  sin : ∀ x : ℝ, ρ.function "sin" [(x : ℂ)] = Real.sin x
  cos : ∀ x : ℝ, ρ.function "cos" [(x : ℂ)] = Real.cos x

namespace Elementary

theorem surdOf_halfRoot {n : ℕ} (large : 2 ≤ n) :
    SurdOf imaginary m ρ ((1 / 2 * √(n : ℝ) : ℝ) : ℂ) (halfRoot n) := by
  have shape : halfRoot n = symbol (1 / 2) (toString n) (mkRat 1 2) := by
    rw [halfRoot, (mkRat_one_eq one_lt_two).1]
    norm_num
  refine ⟨?_, .term fun f member => ?_, ?_⟩
  · rw [shape]
    exact (IsRoot.root (1 / 2) n 2 (by norm_num) le_rfl).wellFormed
  · rw [shape] at member
    obtain rfl := List.mem_singleton.mp member
    exact .root large le_rfl
  · rw [shape, complexValue_root, Real.sqrt_eq_rpow]
    push_cast
    norm_num

/-- The values in the table are the sines. -/
theorem surdOf_firstQuadrant? {v : Expr} (found : firstQuadrant? q = some v) :
    SurdOf imaginary m ρ (Real.sin (q * Real.pi) : ℝ) v := by
  have angle {k : ℕ} (same : q = 1 / k) : (q : ℝ) * Real.pi = Real.pi / k := by
    rw [same]
    push_cast
    ring
  have exact {c : ℚ} (value : Real.sin (q * Real.pi) = c) :
      SurdOf imaginary m ρ (Real.sin (q * Real.pi) : ℝ) (number c) := by
    have stands : SurdOf imaginary m ρ c (number c) := .number c
    rwa [value, Complex.ofReal_ratCast]
  unfold firstQuadrant? at found
  split at found
  next zeroed =>
    cases found
    exact exact (by simp [zeroed])
  split at found
  next sixth =>
    cases found
    refine exact ?_
    rw [angle (k := 6) (by exact_mod_cast sixth)]
    push_cast
    exact Real.sin_pi_div_six
  split at found
  next quarter =>
    cases found
    have value : Real.sin (q * Real.pi) = 1 / 2 * √((2 : ℕ) : ℝ) := by
      rw [angle (k := 4) (by exact_mod_cast quarter)]
      push_cast
      rw [Real.sin_pi_div_four]
      ring
    rw [value]
    exact surdOf_halfRoot le_rfl
  split at found
  next third =>
    cases found
    have value : Real.sin (q * Real.pi) = 1 / 2 * √((3 : ℕ) : ℝ) := by
      rw [angle (k := 3) (by exact_mod_cast third)]
      push_cast
      rw [Real.sin_pi_div_three]
      ring
    rw [value]
    exact surdOf_halfRoot (by norm_num)
  split at found
  next half =>
    cases found
    refine exact ?_
    rw [angle (k := 2) (by exact_mod_cast half)]
    push_cast
    exact Real.sin_pi_div_two
  · cases found

/-- An angle below half a turn, mirrored into the first quadrant. -/
def mirror (k : ℚ) : ℚ := if 1 / 2 < k then 1 - k else k

theorem sin_mirror (k : ℚ) : Real.sin (mirror k * Real.pi) = Real.sin (k * Real.pi) := by
  unfold mirror
  split
  · rw [← Real.sin_pi_sub]
    push_cast
    ring_nf
  · rfl

theorem sineOfPiMultiple?_eq (q : ℚ) : sineOfPiMultiple? q =
    if 1 ≤ q - 2 * ((q / 2).floor : ℚ) then
      (firstQuadrant? (mirror (q - 2 * ((q / 2).floor : ℚ) - 1))).map Expr.neg
    else firstQuadrant? (mirror (q - 2 * ((q / 2).floor : ℚ))) := by
  unfold sineOfPiMultiple?
  dsimp only
  split
  · rfl
  · simp [mirror]

/-- The sine is that of an angle in the first quadrant, up to the sign. -/
theorem surdOf_sineOfPiMultiple? {v : Expr} (found : sineOfPiMultiple? q = some v) :
    SurdOf imaginary m ρ (Real.sin (q * Real.pi) : ℝ) v := by
  rw [sineOfPiMultiple?_eq] at found
  set k := q - 2 * ((q / 2).floor : ℚ) with hk
  have turned : Real.sin (q * Real.pi) = Real.sin (k * Real.pi) := by
    rw [hk, ← Real.sin_sub_int_mul_two_pi _ (q / 2).floor]
    push_cast
    ring_nf
  rw [turned]
  split at found
  next flipped =>
    obtain ⟨u, quadrant, rfl⟩ := Option.map_eq_some_iff.mp found
    have stands : SurdOf imaginary m ρ _ _ := (surdOf_firstQuadrant? quadrant).neg
    have half : Real.sin (k * Real.pi) = -Real.sin (((k - 1 : ℚ) : ℝ) * Real.pi) := by
      rw [← Real.sin_add_pi]
      push_cast
      ring_nf
    rwa [sin_mirror, ← Complex.ofReal_neg, ← half] at stands
  next straight =>
    have stands : SurdOf imaginary m ρ _ _ := surdOf_firstQuadrant? found
    rwa [sin_mirror] at stands

/-- Where the sine vanishes, zero is returned. -/
theorem sineOfPiMultiple?_of_sin_eq_zero (vanishes : Real.sin (q * Real.pi) = 0) :
    ∃ v, sineOfPiMultiple? q = some v ∧ v.isZero = true := by
  obtain ⟨z, whole⟩ := Real.sin_eq_zero_iff.mp vanishes
  obtain rfl : (z : ℚ) = q := by
    have same := mul_right_cancel₀ Real.pi_ne_zero whole
    exact_mod_cast same
  have floor (j : ℤ) {r : ℚ} (nonnegative : 0 ≤ r) (small : r < 1) : ((j : ℚ) + r).floor = j := by
    have part : ⌊(j : ℚ) + r⌋ = j := Int.floor_eq_iff.mpr ⟨by linarith, by linarith⟩
    exact part
  have start : firstQuadrant? (mirror 0) = some zero := by simp [mirror, firstQuadrant?]
  rw [sineOfPiMultiple?_eq]
  rcases Int.even_or_odd' z with ⟨j, rfl | rfl⟩
  · have half : (((2 * j : ℤ) : ℚ) / 2) = (j : ℚ) + 0 := by push_cast; ring
    have turned : (((2 * j : ℤ) : ℚ) - 2 * (j : ℚ)) = 0 := by push_cast; ring
    rw [half, floor j le_rfl one_pos, turned]
    exact ⟨zero, by rw [if_neg (by norm_num), start], rfl⟩
  · have half : (((2 * j + 1 : ℤ) : ℚ) / 2) = (j : ℚ) + 1 / 2 := by push_cast; ring
    have turned : (((2 * j + 1 : ℤ) : ℚ) - 2 * (j : ℚ)) = 1 := by push_cast; ring
    rw [half, floor j (by norm_num) (by norm_num), turned]
    exact ⟨Expr.neg zero, by rw [if_pos le_rfl, sub_self, start]; rfl, by decide +kernel⟩

/-- The angle is a multiple of `pi`, or zero. -/
theorem piMultiple?_scale (q : ℚ) : piMultiple? ((bare "pi").scale q) = some q := by
  unfold scale
  split
  next zeroed => rw [zeroed]; rfl
  next => simp [bare, withCoeff, coeff, piMultiple?]

theorem scale_pi (nonzero : q ≠ 0) : (bare "pi").scale q = symbol q "pi" 1 := by
  rw [scale, if_neg nonzero, bare, withCoeff, coeff, one_mul]

theorem complexValue_angle (q : ℚ) : complexValue ρ (symbol q "pi" 1) = ((q * Real.pi : ℝ) : ℂ) := by
  have pi : ρ.name "pi" = Real.pi := by
    rw [Reading.name, if_neg (by decide), if_pos rfl]
  rw [complexValue, pi]
  push_cast
  rw [Complex.cpow_one]

/-- A call that was left unevaluated is read as the function at the angle. -/
theorem surdOf_inert {name : String} (circular : name = "sin" ∨ name = "cos") (nonzero : q ≠ 0) {value : ℝ}
    (reads : ρ.function name [((q * Real.pi : ℝ) : ℂ)] = value) :
    SurdOf imaginary q ρ value (inert name [symbol q "pi" 1]) := by
  have factor : SurdFactor imaginary q (inert name [symbol q "pi" 1]) := by
    have power : SurdFactor imaginary q (call 1 name [symbol q "pi" 1] (1 : ℕ)) :=
      .circular circular one_ne_zero nonzero
    rwa [Nat.cast_one] at power
  refine ⟨factor.wellFormed, .term fun f member => ?_, ?_⟩
  · obtain rfl := List.mem_singleton.mp member
    exact factor
  · rw [inert, complexValue, complexValues, complexValues, complexValue_angle, reads]
    push_cast
    rw [Complex.cpow_one, one_mul]

theorem flat_sineOfPiMultiple? {v : Expr} (found : sineOfPiMultiple? q = some v) : v.isPlainSum = false := by
  have quadrant {k : ℚ} {u : Expr} (found : firstQuadrant? k = some u) : u.isPlainSum = false := by
    unfold firstQuadrant? at found
    repeat' split at found
    all_goals cases found <;> rfl
  rw [sineOfPiMultiple?_eq] at found
  split at found
  · obtain ⟨u, inside, rfl⟩ := Option.map_eq_some_iff.mp found
    rw [Expr.neg, isPlainSum_withCoeff, quadrant inside]
  · exact quadrant found

/-- The sine of an angle that is no negative one: from the table, or left unevaluated. -/
theorem sin_part_cases (above : 0 ≤ q) :
    sineOfPiMultiple? q = some (sin ((bare "pi").scale q)) ∨
      q ≠ 0 ∧ sin ((bare "pi").scale q) = inert "sin" [symbol q "pi" 1] := by
  have exact : exactSine? ((bare "pi").scale q) = sineOfPiMultiple? q := by
    rw [exactSine?, piMultiple?_scale, Option.bind_some]
  cases found : sineOfPiMultiple? q with
  | some v => exact .inl (by rw [sin, exact, found, Option.getD_some])
  | none =>
    have nonzero : q ≠ 0 := by
      rintro rfl
      obtain ⟨v, known, -⟩ := sineOfPiMultiple?_of_sin_eq_zero (q := 0) (by simp)
      cases known.symm.trans found
    refine .inr ⟨nonzero, ?_⟩
    rw [sin, exact, found, Option.getD_none, scale_pi nonzero, odd, coeff, if_neg above.not_gt]
    rfl

theorem cos_part_cases (above : 0 ≤ q) :
    sineOfPiMultiple? (1 / 2 - q) = some (cos ((bare "pi").scale q)) ∨
      q ≠ 0 ∧ cos ((bare "pi").scale q) = inert "cos" [symbol q "pi" 1] := by
  have exact : exactCosine? ((bare "pi").scale q) = sineOfPiMultiple? (1 / 2 - q) := by
    rw [exactCosine?, piMultiple?_scale, Option.bind_some]
  cases found : sineOfPiMultiple? (1 / 2 - q) with
  | some v => exact .inl (by rw [cos, exact, found, Option.getD_some])
  | none =>
    have nonzero : q ≠ 0 := by
      rintro rfl
      have known : (sineOfPiMultiple? (1 / 2 - 0)).isSome = true := by decide +kernel
      rw [found] at known
      cases known
    refine .inr ⟨nonzero, ?_⟩
    rw [cos, exact, found, Option.getD_none, scale_pi nonzero, even, coeff, if_neg above.not_gt]
    rfl

theorem surdOf_sin (reads : ρ.KnowsCircle) (above : 0 ≤ q) :
    SurdOf imaginary q ρ (Real.sin (q * Real.pi) : ℝ) (sin ((bare "pi").scale q)) ∧
      (sin ((bare "pi").scale q)).isPlainSum = false := by
  rcases sin_part_cases above with known | ⟨nonzero, left⟩
  · exact ⟨surdOf_sineOfPiMultiple? known, flat_sineOfPiMultiple? known⟩
  · rw [left]
    exact ⟨surdOf_inert (.inl rfl) nonzero (reads.sin _), rfl⟩

theorem surdOf_cos (reads : ρ.KnowsCircle) (above : 0 ≤ q) :
    SurdOf imaginary q ρ (Real.cos (q * Real.pi) : ℝ) (cos ((bare "pi").scale q)) := by
  rcases cos_part_cases above with known | ⟨nonzero, left⟩
  · have complement : Real.cos (q * Real.pi) = Real.sin (((1 / 2 - q : ℚ) : ℝ) * Real.pi) := by
      rw [← Real.sin_pi_div_two_sub]
      push_cast
      ring_nf
    rw [complement]
    exact surdOf_sineOfPiMultiple? known
  · rw [left]
    exact surdOf_inert (.inr rfl) nonzero (reads.cos _)

/-- Where the sine vanishes, it is the number zero. -/
theorem isZero_sin (vanishes : Real.sin (q * Real.pi) = 0) :
    (sin ((bare "pi").scale q)).isZero = true := by
  obtain ⟨v, found, zeroed⟩ := sineOfPiMultiple?_of_sin_eq_zero vanishes
  have exact : exactSine? ((bare "pi").scale q) = some v := by
    rw [exactSine?, piMultiple?_scale, Option.bind_some, found]
  rwa [sin, exact, Option.getD_some]

end Elementary

namespace Expr

/-- The imaginary unit comes in only where there is something to multiply it with. -/
theorem surdOf_times_i {z : ℂ} {s : Expr} (stands : SurdOf imaginary m ρ z s) (flat : s.isPlainSum = false)
    (admitted : s.isZero = true ∨ imaginary = true) (returned : mul (bare "i") s = .ok r) :
    SurdOf imaginary m ρ (Complex.I * z) r := by
  rcases admitted with zeroed | admitted
  · rw [mul_of_isZero (by rw [zeroed, Bool.or_true])] at returned
    cases returned
    have vanishes : z = 0 := by rw [← stands.value, (addsUp_complexValue ρ).of_isZero zeroed]
    rw [vanishes, mul_zero]
    exact .zero
  · have unit : SurdTerm imaginary m (bare "i") := by
      intro f member
      obtain rfl := List.mem_singleton.mp member
      exact .unit admitted
    obtain ⟨term, value⟩ := unit.mul (ρ := ρ) (stands.surd.surdTerm flat) returned
    refine ⟨mul_wellFormed (wellFormed_bare (by decide) (by decide)) stands.formed returned, .term term, ?_⟩
    have i : complexValue ρ (bare "i") = Complex.I := by simp [bare, complexValue, name_i]
    rw [value, stands.value, i]

/-- A root times a sum is kept as a product of the two. -/
theorem mul_root_sum {c k : ℚ} {n d : ℕ} {terms : List Expr} (nonzero : c ≠ 0) (nonzero' : k ≠ 0)
    (returned : mul (symbol c (toString n) (mkRat 1 d)) (sum k terms 1) = .ok r) :
    r = product (c * k) [symbol 1 (toString n) (mkRat 1 d), sum 1 terms 1] := by
  obtain ⟨n', limit⟩ := enough_for_one (symbol c (toString n) (mkRat 1 d)) (sum k terms 1)
  rw [mul, limit] at returned
  unfold mulWithin at returned
  simp only [isZero, Bool.or_self, Bool.false_eq_true, if_false] at returned
  obtain ⟨⟨merged, e⟩, found, returned⟩ := Outcome.bind_ok returned
  cases returned
  obtain ⟨-, ⟨-, found⟩ | ⟨_, _, _, _, impossible, _⟩⟩ := mergeWithin_cons found
  · obtain _ | n' := n'
    · cases found
    -- The keys differ, since the key of the sum begins with a parenthesis.
    have apart : (toString n == (sum k terms 1).unit.baseKey) = false := by
      have opens : '(' ∈ (sum k terms 1).unit.baseKey.toList := by
        change '(' ∈ (sum 1 terms 1).face.key.toList
        rw [(layout_sum 1 terms 1).2.1, guarded_sum]
        exact List.mem_cons_self
      exact beq_eq_false_iff_ne.mpr (toString_ne_of_mem opens (by decide))
    have fresh : removeFactor (sum k terms 1).unit.baseKey
        [((symbol c (toString n) (mkRat 1 d)).unit.baseKey, (symbol c (toString n) (mkRat 1 d)).unit)] = none := by
      have key : (symbol c (toString n) (mkRat 1 d)).unit.baseKey = toString n := baseKey_root 1 n _
      rw [key, removeFactor, apart]
      rfl
    obtain ⟨-, ⟨-, found⟩ | ⟨_, _, _, _, impossible, _⟩⟩ := mergeWithin_cons found
    · have last : mergeWithin n' [] ([((symbol c (toString n) (mkRat 1 d)).unit.baseKey,
          (symbol c (toString n) (mkRat 1 d)).unit)] ++ [((sum k terms 1).unit.baseKey, (sum k terms 1).unit)]) (c * k) =
          .ok (merged, e) := found
      unfold mergeWithin at last
      cases last
      exact if_neg (mul_ne_zero nonzero nonzero')
    · cases fresh.symm.trans impossible
  · cases impossible

theorem returns_expand {post : Expr → Prop} (inside : ∀ context, Returns context (expandTree e) post) :
    Returns context (expand e) post :=
  Meets.bind _ (Meets.anyway _) fun _ _ => Meets.inScope (inside _)

theorem IsRootOf.pos {x : ℚ} {d : ℕ} {radius : Expr} (root : IsRootOf x d radius) : 0 < x := by
  cases root with
  | number positive value => exact value ▸ pow_pos positive d
  | @root c n positive large value =>
    have : (0 : ℚ) < n := by exact_mod_cast (by omega : 0 < n)
    rw [← value]
    positivity

theorem IsRootOf.wellFormed {x : ℚ} {d : ℕ} {radius : Expr} (root : IsRootOf x d radius) (several : 2 ≤ d) :
    radius.WellFormed := by
  cases root with
  | number => trivial
  | root positive => exact (IsRoot.root _ _ _ positive.ne' several).wellFormed

theorem IsRootOf.surdTerm {x : ℚ} {d : ℕ} {radius : Expr} (root : IsRootOf x d radius) (several : 2 ≤ d) :
    SurdTerm imaginary m radius := by
  intro f member
  cases root with
  | number => cases member
  | root _ large =>
    obtain rfl := List.mem_singleton.mp member
    exact .root large several

/-- A root times such a number, multiplied out. -/
theorem IsRootOf.returns_expandTree_mul {x : ℚ} {d : ℕ} {radius u : Expr} {z : ℂ} (root : IsRootOf x d radius)
    (several : 2 ≤ d) (stands : SurdOf imaginary m ρ z u) (multiplied : mul radius u = .ok r) :
    Returns context (expandTree r) (SurdOf imaginary m ρ (radius.complexValue ρ * z)) := by
  have formed := mul_wellFormed (root.wellFormed several) stands.formed multiplied
  cases plain : u.isPlainSum with
  | false =>
    obtain ⟨term, value⟩ := (root.surdTerm several).mul (ρ := ρ) (stands.surd.surdTerm plain) multiplied
    rw [← stands.value, ← value]
    exact (Surd.term term).returns_expandTree formed
  | true =>
    cases u with
    | sum k terms p =>
      obtain rfl : p = 1 := by simpa [isPlainSum] using plain
      cases root with
      | @number c positive value =>
        obtain ⟨n, limit⟩ := enough_for_one (Expr.number c) (Expr.sum k terms 1)
        rw [mul, limit, mulWithin_number _ positive.ne' rfl] at multiplied
        cases multiplied
        have scaled := stands.scale c
        rw [Expr.complexValue, ← scaled.value]
        exact scaled.surd.returns_expandTree scaled.formed
      | @root c n positive large value =>
        obtain rfl := mul_root_sum positive.ne' stands.formed.1 multiplied
        have factors : (product (c * k) [symbol 1 (toString n) (mkRat 1 d), Expr.sum 1 terms 1]).complexValue ρ =
            (symbol c (toString n) (mkRat 1 d)).complexValue ρ * z := by
          rw [← stands.value, (addsUp_complexValue ρ).unit (symbol c (toString n) (mkRat 1 d)),
            (addsUp_complexValue ρ).unit (Expr.sum k terms 1)]
          simp only [Expr.complexValue.eq_5, complexValues_eq, List.map_cons, List.map_nil, List.prod_cons,
            List.prod_nil, Rat.cast_mul, coeff, unit, withCoeff]
          ring
        rw [← factors]
        refine returns_expandTree_product _ fun f member => ?_
        simp only [List.mem_cons, List.not_mem_nil, or_false] at member
        rcases member with rfl | rfl
        · exact (SurdFactor.root large several).returns_expandTree
        · exact (stands.surd.withCoeff 1).returns_expandTree stands.formed.unit
    | _ => cases plain

abbrev reals : Subring ℂ := Complex.ofRealHom.range

theorem ratCast_mem_reals (c : ℚ) : (c : ℂ) ∈ reals := ⟨c, Complex.ofReal_ratCast c⟩

/-- Without the imaginary unit, all factors are real. -/
theorem SurdFactor.real (reads : ρ.KnowsCircle) {f : Expr} (factor : SurdFactor false m f) :
    f.complexValue ρ ∈ reals := by
  cases factor with
  | @root n d large degree => exact ⟨_, (complexValue_root 1 n d).symm⟩
  | unit admitted => cases admitted
  | @circular name k circular positive nonzero =>
    obtain ⟨y, value⟩ : ∃ y : ℝ, ρ.function name [((m * Real.pi : ℝ) : ℂ)] = y := by
      rcases circular with rfl | rfl
      · exact ⟨_, reads.sin _⟩
      · exact ⟨_, reads.cos _⟩
    refine ⟨y ^ k, ?_⟩
    rw [complexValue, complexValues, complexValues, Elementary.complexValue_angle, value]
    push_cast
    rw [Complex.cpow_natCast, one_mul]
    exact Complex.ofReal_pow y k

namespace Surd

theorem real (reads : ρ.KnowsCircle) (surd : Surd false m e) : e.complexValue ρ ∈ reals := by
  induction surd with
  | @term t term =>
    rw [complexValue_factors]
    refine reals.mul_mem (ratCast_mem_reals _) (reals.list_prod_mem fun z member => ?_)
    obtain ⟨f, inside, rfl⟩ := List.mem_map.mp member
    exact (term f inside).real reads
  | @sum c terms each ih =>
    rw [(addsUp_complexValue ρ).sum]
    refine reals.mul_mem (ratCast_mem_reals c) (reals.list_sum_mem fun z member => ?_)
    obtain ⟨t, inside, rfl⟩ := List.mem_map.mp member
    exact ih t inside

end Surd

theorem SurdFactor.lacks_i {f : Expr} (factor : SurdFactor false m f) : NamesHave (· ≠ "i") f := by
  cases factor with
  | root => exact .symbol (toString_ne_of_mem (c := 'i') (by decide) (by decide))
  | unit admitted => cases admitted
  | circular =>
    intro x member
    obtain rfl := List.mem_singleton.mp member
    decide

theorem SurdFactor.of_lacks_i {f : Expr} (factor : SurdFactor imaginary m f) (lacks : NamesHave (· ≠ "i") f) :
    SurdFactor false m f := by
  cases factor with
  | root large degree => exact .root large degree
  | unit => exact absurd rfl (lacks "i" List.mem_cons_self)
  | circular circular positive nonzero => exact .circular circular positive nonzero

namespace Surd

/-- The imaginary unit does not occur exactly in those that are built without it. -/
theorem contains_i (surd : Surd imaginary m e) : e.contains "i" = false ↔ Surd false m e := by
  rw [contains_eq_false_iff]
  induction surd with
  | @term t term =>
    refine ⟨fun lacks => .term fun f member => (term f member).of_lacks_i (lacks.factors f member), fun real => ?_⟩
    exact NamesHave.keptByProducts.of_factors fun f member => (real.surdTerm term.flat f member).lacks_i
  | @sum c terms each ih =>
    rw [NamesHave.sum]
    exact ⟨fun lack => .sum fun t member => (ih t member).mp (lack t member),
      fun real t member => (ih t member).mpr (real.terms t member)⟩

end Surd

end Expr

namespace Poly

/-- A root on the circle has the angle of its part, and the imaginary unit occurs in it unless it is real. -/
theorem returns_circleRoot_value (knows : KnowsCircle context) (reads : ρ.KnowsCircle) {x : ℚ} {n : ℕ}
    {radius : Expr} (root : IsRootOf x n radius) (several : 2 ≤ n) (offset k : ℕ) :
    Returns context (circleRoot radius n offset k) fun e =>
      e.complexValue ρ = ((x : ℝ) ^ (n : ℝ)⁻¹ : ℝ) *
        Complex.exp ((mkRat (2 * k + offset : ℕ) n * Real.pi : ℝ) * Complex.I) ∧
      (e.contains "i" = false ↔ (e.complexValue ρ).im = 0) := by
  set q := mkRat (2 * k + offset : ℕ) n with hq
  have above : 0 ≤ q := by
    rw [hq, Rat.mkRat_eq_div]
    positivity
  have sine : SurdOf (!(Elementary.sin ((bare "pi").scale q)).isZero) q ρ _ _ ∧ _ :=
    Elementary.surdOf_sin reads above
  have cosine : SurdOf (!(Elementary.sin ((bare "pi").scale q)).isZero) q ρ _ _ :=
    Elementary.surdOf_cos reads above
  have vanishes := Elementary.isZero_sin (q := q)
  set s := Elementary.sin ((bare "pi").scale q)
  have admitted : s.isZero = true ∨ (!s.isZero) = true := by cases s.isZero <;> simp
  have circle : (Real.cos (q * Real.pi) : ℂ) + Complex.I * Real.sin (q * Real.pi) =
      Complex.exp ((q * Real.pi : ℝ) * Complex.I) := by
    rw [Complex.exp_mul_I, Complex.ofReal_cos, Complex.ofReal_sin, mul_comm Complex.I]
  unfold circleRoot
  refine Meets.bind _ (Meets.anyway _) fun _ _ => ?_
  refine Meets.bind _ (knows.returns_cos _) ?_
  rintro _ rfl
  refine Meets.bind _ (knows.returns_sin _) ?_
  rintro _ rfl
  refine Meets.bind _ (Returns.lift fun r multiplied => surdOf_times_i sine.1 sine.2 admitted multiplied)
    fun times standsTimes => ?_
  refine Meets.bind _ (Returns.lift fun r added => cosine.add standsTimes added) fun unit standsUnit => ?_
  rw [circle] at standsUnit
  refine Meets.bind (fun r => ∀ context, Returns context (expandTree r) _)
    (Returns.lift fun r multiplied context => root.returns_expandTree_mul several standsUnit multiplied)
    fun r expands => (returns_expand expands).imp fun e stands => ?_
  have radiusValue := root.complexValue (ρ := ρ) (by omega)
  rw [radiusValue] at stands
  refine ⟨stands.value, ?_⟩
  rw [stands.surd.contains_i]
  constructor
  · intro real
    obtain ⟨y, value⟩ := real.real reads
    rw [← value]
    exact Complex.ofReal_im y
  · intro real
    have positive : (0 : ℝ) < (x : ℝ) ^ (n : ℝ)⁻¹ := Real.rpow_pos_of_pos (by exact_mod_cast root.pos) _
    rw [stands.value, Complex.im_ofReal_mul, Complex.exp_ofReal_mul_I_im] at real
    have zeroed := vanishes ((mul_eq_zero.mp real).resolve_left positive.ne')
    have surd := stands.surd
    rwa [zeroed] at surd

/-- The multiples of the angles by the number of parts are whole turns from the first one. -/
theorem exp_part_pow {n : ℕ} (several : 0 < n) (offset k : ℕ) :
    Complex.exp ((mkRat (2 * k + offset : ℕ) n * Real.pi : ℝ) * Complex.I) ^ n = (-1) ^ offset := by
  have parts : (n : ℂ) ≠ 0 := by exact_mod_cast several.ne'
  have turns : (n : ℂ) * ((mkRat (2 * k + offset : ℕ) n * Real.pi : ℝ) * Complex.I) =
      (2 * k + offset : ℕ) * (Real.pi * Complex.I) := by
    rw [Rat.mkRat_eq_div]
    push_cast
    field_simp
  rw [← Complex.exp_nat_mul, turns, Complex.exp_nat_mul, Complex.exp_pi_mul_I, pow_add, pow_mul, neg_one_sq,
    one_pow, one_mul]

/-- The angles of the parts are different. -/
theorem exp_part_injective {n : ℕ} (offset : ℕ) {k l : ℕ} (smallK : k < n) (smallL : l < n)
    (same : Complex.exp ((mkRat (2 * k + offset : ℕ) n * Real.pi : ℝ) * Complex.I) =
      Complex.exp ((mkRat (2 * l + offset : ℕ) n * Real.pi : ℝ) * Complex.I)) : k = l := by
  have parts : (n : ℂ) ≠ 0 := by exact_mod_cast (by omega : n ≠ 0)
  -- The angle is that of the first part, turned by a primitive root of one.
  have turned (j : ℕ) : Complex.exp ((mkRat (2 * j + offset : ℕ) n * Real.pi : ℝ) * Complex.I) =
      Complex.exp (offset * (Real.pi * Complex.I) / n) * Complex.exp (2 * Real.pi * Complex.I / n) ^ j := by
    rw [← Complex.exp_nat_mul, ← Complex.exp_add, Rat.mkRat_eq_div]
    congr 1
    push_cast
    field_simp
    ring
  rw [turned, turned] at same
  exact (Complex.isPrimitiveRoot_exp n (by omega)).pow_inj smallK smallL
    (mul_left_cancel₀ (Complex.exp_ne_zero _) same)

theorem isRootOf_radius {v : ℚ} (positive : 0 < v) {n : ℕ} (several : 1 < n) {radius : Expr}
    (returned : (number v).powRat (mkRat 1 n) = .ok radius) : IsRootOf v n radius := by
  obtain ⟨-, num, den, -⟩ := mkRat_one_eq several
  rw [powRat_number_root positive.ne' several] at returned
  rcases powNumber_cases positive.ne' (by omega) returned with ⟨-, root⟩ | ⟨negative, -⟩
  · rwa [num, den, zpow_one] at root
  · exact absurd positive negative.not_gt

/-- The values on the circle are different roots of the ratio. -/
theorem circle_values {n : ℕ} (several : 0 < n) {ratio : ℚ} (nonzero : ratio ≠ 0) {es : List Expr}
    (each : List.Forall₂ (fun k e => e.complexValue ρ = (((|ratio| : ℚ) : ℝ) ^ (n : ℝ)⁻¹ : ℝ) *
      Complex.exp ((mkRat (2 * k + (if ratio < 0 then 1 else 0) : ℕ) n * Real.pi : ℝ) * Complex.I))
      (List.range n) es) :
    (es.map (complexValue ρ)).Nodup ∧ ∀ e ∈ es, e.complexValue ρ ^ n = ratio := by
  have positive : (0 : ℝ) < (|ratio| : ℚ) := by exact_mod_cast abs_pos.mpr nonzero
  have size : ((((|ratio| : ℚ) : ℝ) ^ (n : ℝ)⁻¹ : ℝ) : ℂ) ≠ 0 :=
    Complex.ofReal_ne_zero.mpr (Real.rpow_pos_of_pos positive _).ne'
  constructor
  · have values : es.map (complexValue ρ) = (List.range n).map fun k : ℕ =>
        ((((|ratio| : ℚ) : ℝ) ^ (n : ℝ)⁻¹ : ℝ) : ℂ) *
          Complex.exp ((mkRat (2 * k + (if ratio < 0 then 1 else 0) : ℕ) n * Real.pi : ℝ) * Complex.I) := by
      rw [← List.forall₂_eq_eq_eq, List.forall₂_map_left_iff, List.forall₂_map_right_iff]
      exact each.flip
    rw [values]
    refine List.Nodup.map_on (fun k smallK l smallL same => ?_) List.nodup_range
    exact exp_part_injective _ (List.mem_range.mp smallK) (List.mem_range.mp smallL)
      (mul_left_cancel₀ size same)
  · intro e member
    obtain ⟨k, -, value⟩ := (exists_of_forall₂ each).1 e member
    rw [value, mul_pow, exp_part_pow several, ← Complex.ofReal_pow, Real.rpow_inv_natCast_pow positive.le several.ne',
      Complex.ofReal_ratCast]
    split
    next negative => rw [pow_one, abs_of_neg negative, mul_neg_one, Rat.cast_neg, neg_neg]
    next above => rw [pow_zero, mul_one, abs_of_nonneg (not_lt.mp above)]

open Polynomial in
/-- All roots of a polynomial of two terms are returned, each once, and the real ones come first. -/
theorem twoTermRoots_are_all_roots {p : Poly} {n : ℕ} {a b : ℚ} {es : List Expr} {looks later : ℕ}
    (knows : KnowsCircle context) (reads : ρ.KnowsCircle) (high : 3 ≤ n) (lead : a ≠ 0) (last : b ≠ 0)
    (shape : p.toPolynomial = C a * X ^ n + C b)
    (returned : (p.twoTermRoots context).run.run looks = (.ok es, later)) :
    es.length = n ∧ (es.map (complexValue ρ)).Nodup ∧ (∀ e ∈ es, (a : ℂ) * e.complexValue ρ ^ n + b = 0) ∧
      ∃ real others, es = real ++ others ∧
        (∀ e ∈ real, e.contains "i" = false ∧ (e.complexValue ρ).im = 0) ∧
        ∀ e ∈ others, e.contains "i" = true ∧ (e.complexValue ρ).im ≠ 0 := by
  have top : p.toPolynomial.coeff n = a := by simp [shape, coeff_C, show n ≠ 0 by omega]
  have nonzero : p.toPolynomial ≠ 0 := fun zero => lead (by rw [← top, zero, coeff_zero])
  have degree : p.toPolynomial.natDegree = n := by
    rw [shape, natDegree_add_C, natDegree_C_mul_X_pow n a lead]
  have leading : p.leading = a := by rw [leading_eq, leadingCoeff, degree, top]
  have constant : p.coeff 0 = b := by
    rw [← coeff_toPolynomial, shape]
    simp [show 0 ≠ n by omega]
  set ratio := -b / a with hratio
  have other : ratio ≠ 0 := div_ne_zero (neg_ne_zero.mpr last) lead
  suffices all : Returns context p.twoTermRoots fun es =>
      es.length = n ∧ (es.map (complexValue ρ)).Nodup ∧ (∀ e ∈ es, (a : ℂ) * e.complexValue ρ ^ n + b = 0) ∧
        ∃ real others, es = real ++ others ∧
          (∀ e ∈ real, e.contains "i" = false ∧ (e.complexValue ρ).im = 0) ∧
          ∀ e ∈ others, e.contains "i" = true ∧ (e.complexValue ρ).im ≠ 0 from all.returned returned
  unfold twoTermRoots
  dsimp only
  rw [degree_eq nonzero, Int.toNat_natCast, degree, leading, constant, ← hratio, Rational.abs_eq_abs]
  refine Meets.bind (IsRootOf |ratio| n) (Returns.lift fun radius raised =>
    isRootOf_radius (abs_pos.mpr other) (by omega) raised) fun radius root => ?_
  have parts := @Meets.mapM_forall₂ _ _ context (fun _ => True) _ _ id (List.range n) _ fun k _ =>
    returns_circleRoot_value knows reads root (by omega) (if ratio < 0 then 1 else 0) k
  rw [List.map_id] at parts
  refine Meets.bind _ parts fun es each => Meets.pure ?_
  obtain ⟨different, satisfied⟩ := circle_values (ρ := ρ) (by omega) other (each.imp fun _ _ => And.left)
  have real : ∀ e ∈ es, e.contains "i" = false ↔ (e.complexValue ρ).im = 0 := fun e member =>
    ((exists_of_forall₂ each).1 e member).elim fun _ holds => holds.2.2
  have rearranged : (es.filter (!·.contains "i") ++ es.filter (·.contains "i")).Perm es :=
    List.perm_append_comm.trans (List.filter_append_perm (·.contains "i") es)
  refine ⟨?_, ?_, fun e member => ?_, _, _, rfl, fun e member => ?_, fun e member => ?_⟩
  · rw [rearranged.length_eq, ← each.length_eq, List.length_range]
  · exact (rearranged.map _).nodup_iff.mpr different
  · rw [satisfied e (rearranged.mem_iff.mp member), hratio]
    have present : (a : ℂ) ≠ 0 := by exact_mod_cast lead
    push_cast
    field_simp
    ring
  · obtain ⟨inside, absent⟩ := List.mem_filter.mp member
    have absent : e.contains "i" = false := by simpa using absent
    exact ⟨absent, (real e inside).mp absent⟩
  · obtain ⟨inside, present⟩ := List.mem_filter.mp member
    refine ⟨present, fun vanishes => ?_⟩
    rw [(real e inside).mpr vanishes] at present
    cases present

/-- Names are read as zero, and sine and cosine as the real functions. -/
noncomputable def realCircle : Reading where
  unknown _ := 0
  function name args := if name = "sin" then Real.sin (args.headD 0).re else Real.cos (args.headD 0).re

open Polynomial in
/-- The fifth roots of `-3/2`, of which one is real. -/
theorem roots_of_quintic :
    Reading.KnowsCircle realCircle ∧ ∃ es later,
      ((ofList [3, 0, 0, 0, 0, 2]).twoTermRoots ⟨Session.initial.scope, callWithin maxCallDepth⟩).run.run 0 =
          (.ok es, later) ∧
        es.length = 5 ∧ (es.map (complexValue realCircle)).Nodup ∧
          ∀ e ∈ es, ((2 : ℚ) : ℂ) * e.complexValue realCircle ^ 5 + (3 : ℚ) = 0 := by
  have reads : Reading.KnowsCircle realCircle := by
    refine ⟨fun x => ?_, fun x => ?_⟩ <;> simp [realCircle]
  have shape : (ofList [3, 0, 0, 0, 0, 2]).toPolynomial = C 2 * X ^ 5 + C 3 := by
    have trimmed : (ofList [3, 0, 0, 0, 0, 2]).coefficients = [3, 0, 0, 0, 0, 2] := by decide +kernel
    rw [toPolynomial, trimmed]
    simp only [ofCoefficients, map_zero]
    ring
  set context : Context := ⟨Session.initial.scope, callWithin maxCallDepth⟩
  obtain ⟨es, answer⟩ := Option.isSome_iff_exists.mp
    (show ((twoTermRoots (ofList [3, 0, 0, 0, 0, 2]) context).run.run 0).1.toOption.isSome = true by
      decide +kernel)
  have knows : KnowsCircle context := ⟨⟨_, rfl⟩, rfl, rfl⟩
  clear_value context
  obtain ⟨later, returned⟩ := exists_run answer
  obtain ⟨count, different, satisfied, -⟩ := twoTermRoots_are_all_roots knows reads (by norm_num) (by norm_num)
    (by norm_num) shape returned
  exact ⟨reads, es, later, returned, count, different, satisfied⟩

end Poly

end ExactAlgebra
