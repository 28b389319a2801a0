import ExactAlgebra.Calculus.Derivative
import ExactAlgebra.Proofs.CircleRoots
import ExactAlgebra.Proofs.Execution
import ExactAlgebra.Proofs.Slopes
import ExactAlgebra.Proofs.SmoothArithmetic
import ExactAlgebra.Proofs.Verdicts
import Mathlib

/-! Differentiation. What it returns for a smooth expression is again smooth and stands for the slope, so higher
orders are the higher derivatives. Only the deadline and keys that cannot be written out stop it. -/
namespace ExactAlgebra
open Engine ExactAlgebra.Expr

/-- In the context calls are resolved by the table of functions; sine, cosine and logarithm are the built-in
ones. -/
structure KnowsElementary (context : Context) : Prop where
  calls : ∃ depth, context.call = callWithin (depth + 1)
  builtin : ∀ name ∈ ["sin", "cos", "log"],
    context.scope.functions.lookup name = Builtin.functions.lookup name

namespace Elementary

variable {u : Expr}

/-- Among smooth expressions zero is the only multiple of `pi`. -/
theorem piMultiple?_smooth (smooth : Smooth u) : piMultiple? u = none ∨ u = number 0 := by
  cases smooth with
  | number c =>
    by_cases zero : c = 0
    · exact .inr (by rw [zero])
    · exact .inl (if_neg zero)
  | unknown named =>
    refine .inl (if_neg ?_)
    intro both
    obtain ⟨same, -⟩ := Bool.and_eq_true_iff.mp both
    rw [eq_of_beq same] at named
    cases named
  | powerOfE => exact .inl (by simp [piMultiple?])
  | _ => exact .inl rfl

/-- Among smooth expressions there are no calls to undo. -/
theorem undo_smooth (smooth : Smooth u) {name inverse : String} (other : inverse ≠ "sin" ∧ inverse ≠ "cos") :
    undo name inverse u = inert name [u] := by
  unfold undo
  split
  next f v rest found =>
    refine if_neg fun same => ?_
    cases smooth with
    | @circular c g v p named =>
      obtain ⟨-, rfl, -⟩ : (c = 1 ∧ p = 1) ∧ g = f ∧ _ := by simpa [bareCall?] using found
      obtain rfl := eq_of_beq same
      tauto
    | _ => cases found
  · rfl

/-- What the sine of a smooth expression is. -/
theorem sin_cases (smooth : Smooth u) :
    (u = number 0 ∧ sin u = zero) ∨ sin u = inert "sin" [u] ∨ sin u = neg (inert "sin" [neg u]) := by
  rcases piMultiple?_smooth smooth with none | rfl
  · refine .inr ?_
    have open_ : sin u = odd (undo "sin" "asin") u := by simp [sin, exactSine?, none]
    rw [open_, odd]
    split
    · exact .inr (congrArg neg (undo_smooth (smooth.withCoeff _) (by decide)))
    · exact .inl (undo_smooth smooth (by decide))
  · exact .inl ⟨rfl, by cbv⟩

/-- What the cosine of a smooth expression is. -/
theorem cos_cases (smooth : Smooth u) :
    (u = number 0 ∧ cos u = one) ∨ cos u = inert "cos" [u] ∨ cos u = inert "cos" [neg u] := by
  rcases piMultiple?_smooth smooth with none | rfl
  · refine .inr ?_
    have open_ : cos u = even (undo "cos" "acos") u := by simp [cos, exactCosine?, none]
    rw [open_, even]
    split
    · exact .inr (undo_smooth (smooth.withCoeff _) (by decide))
    · exact .inl (undo_smooth smooth (by decide))
  · exact .inl ⟨rfl, by cbv⟩

end Elementary

namespace KnowsElementary

variable {context : Context} {accepts : Fault → Prop} {u : Expr}

theorem inBlock (knows : KnowsElementary context) (guard : Deadline.Guard) :
    KnowsElementary (block context guard) := ⟨knows.calls, knows.builtin⟩

/-- Sine and cosine are computed for every well-formed expression. -/
theorem meets_apply (knows : KnowsElementary context) {name : String} {function : Builtin} {rule : Expr → Expr}
    (listed : name ∈ ["sin", "cos", "log"])
    (known : Builtin.functions.lookup name = some ⟨name, 1, some 1, .builtin function, false⟩)
    (ruled : function.onExpr? = some fun x => return rule x) (formed : u.WellFormed) :
    Meets context accepts (apply name u) (· = rule u) := by
  obtain ⟨depth, calls⟩ := knows.calls
  refine ExactAlgebra.meets_apply calls ((knows.builtin name listed).trans known) le_rfl ?_
  have owned : Meets ⟨context.scope, callWithin depth⟩ accepts (own u) fun _ => True := by
    unfold own
    refine Meets.bind (fun _ => True) (fun _ => trivial) fun settings _ => ?_
    rw [Reader.isCopyable_of_wellFormed formed, Bool.not_true, Bool.and_false]
    exact Meets.pure trivial
  unfold Builtin.run
  rw [ruled]
  refine Meets.bind (· = u) (Meets.pure rfl) ?_
  rintro _ rfl
  dsimp only
  split
  · exact Meets.bind _ owned fun _ _ => Meets.pure rfl
  · exact Meets.pure rfl

theorem meets_sin (knows : KnowsElementary context) (formed : u.WellFormed) :
    Meets context accepts (apply "sin" u) (· = Elementary.sin u) :=
  knows.meets_apply (by decide) (by rfl) rfl formed

theorem meets_cos (knows : KnowsElementary context) (formed : u.WellFormed) :
    Meets context accepts (apply "cos" u) (· = Elementary.cos u) :=
  knows.meets_apply (by decide) (by rfl) rfl formed

/-- The logarithm of `e` is one. -/
theorem meets_log_e (knows : KnowsElementary context) :
    Meets context accepts (apply "log" (Expr.bare "e")) (· = Expr.one) := by
  obtain ⟨depth, calls⟩ := knows.calls
  have runs : Meets ⟨context.scope, callWithin depth⟩ accepts (Builtin.log.run [.expr (bare "e")]) (· = .expr one) :=
    Meets.pure rfl
  exact ExactAlgebra.meets_apply calls ((knows.builtin "log" (by decide)).trans (by rfl))
    (by decide : (1 : ℤ) ≤ 2) runs

end KnowsElementary

namespace Expr

variable {context : Context} {x : String} {a b d e f u r : Expr} {D : Set (String → ℝ)}
  {V W : (String → ℝ) → ℝ} {cause : Prop}

/-- On the domain the smooth expression has no pole and stands for the given number. -/
structure Stands (D : Set (String → ℝ)) (V : (String → ℝ) → ℝ) (r : Expr) : Prop where
  formed : r.WellFormed
  smooth : Smooth r
  regular : ∀ ρ ∈ D, NoPole ρ r
  value : ∀ ρ ∈ D, realValue ρ r = V ρ

/-- Something is too long to be written out: the key of a term or of a factor, or that of a term in the exponent
of a power of `e`. -/
def HasLongKey (e : Expr) : Prop := HasLongTerm e ∨ ∃ f ∈ e.factors, StopsProduct f

def RefusedFor (cause : Prop) (fault : Fault) : Prop := fault = .unsupported ∧ cause

namespace Stands

theorem self (formed : e.WellFormed) (smooth : Smooth e) (regular : ∀ ρ ∈ D, NoPole ρ e) :
    Stands D (fun ρ => realValue ρ e) e := ⟨formed, smooth, regular, fun _ _ => rfl⟩

theorem number (D : Set (String → ℝ)) (c : ℚ) : Stands D (fun _ => c) (number c) :=
  ⟨trivial, .number c, fun _ _ => .number c, fun _ _ => rfl⟩

theorem congr (stands : Stands D V r) (same : ∀ ρ ∈ D, V ρ = W ρ) : Stands D W r :=
  ⟨stands.formed, stands.smooth, stands.regular, fun ρ inside => (stands.value ρ inside).trans (same ρ inside)⟩

theorem mono {D' : Set (String → ℝ)} (stands : Stands D V r) (sub : D' ⊆ D) : Stands D' V r :=
  ⟨stands.formed, stands.smooth, fun ρ inside => stands.regular ρ (sub inside),
    fun ρ inside => stands.value ρ (sub inside)⟩

theorem scale (stands : Stands D V r) (c : ℚ) : Stands D (fun ρ => c * V ρ) (r.scale c) where
  formed := stands.formed.scale c
  smooth := Smooth.keptByProducts.scale stands.smooth c
  regular ρ inside := (NoPole.keptByProducts ρ).scale (stands.regular ρ inside) c
  value ρ inside := by rw [realValue_scale, stands.value ρ inside]

theorem neg (stands : Stands D V r) : Stands D (fun ρ => -V ρ) r.neg where
  formed := stands.formed.neg
  smooth := stands.smooth.withCoeff _
  regular ρ inside := (stands.regular ρ inside).withCoeff _
  value ρ inside := by
    rw [← stands.value ρ inside, Expr.neg, (addsUp_realValue ρ).withCoeff, (addsUp_realValue ρ).unit r]
    push_cast
    ring

/-- A sum is returned, or the key of a term is too long. -/
theorem add (standsA : Stands D V a) (standsB : Stands D W b) (long : HasLongTerm a ∨ HasLongTerm b → cause) :
    (add a b = .error .unsupported ∧ cause) ∨
      ∃ r, Expr.add a b = .ok r ∧ Stands D (V + W) r ∧ (HasLongTerm r → cause) := by
  rcases add_smooth standsA.formed standsB.formed standsA.smooth standsB.smooth with
    ⟨failed, keyless⟩ | ⟨r, returned, adds⟩
  · exact .inl ⟨failed, long keyless⟩
  · refine .inr ⟨r, returned, ⟨adds.formed, adds.smooth, fun ρ inside => ?_, fun ρ inside => ?_⟩,
      fun keyless => long (adds.long keyless)⟩
    · exact adds.regular ρ (standsA.regular ρ inside) (standsB.regular ρ inside)
    · rw [adds.value, standsA.value ρ inside, standsB.value ρ inside]
      rfl

/-- A product is returned, or something in a factor is too long. -/
theorem mul (standsA : Stands D V a) (standsB : Stands D W b) (stopsA : ∀ f ∈ a.factors, StopsProduct f → cause)
    (stopsB : ∀ f ∈ b.factors, StopsProduct f → cause) :
    (mul a b = .error .unsupported ∧ cause) ∨
      ∃ r, Expr.mul a b = .ok r ∧ Stands D (V * W) r ∧ ∀ f ∈ r.factors, StopsProduct f → cause := by
  have either {f : Expr} (member : f ∈ a.factors ++ b.factors) (stops : StopsProduct f) : cause := by
    rcases List.mem_append.mp member with left | right
    · exact stopsA f left stops
    · exact stopsB f right stops
  rcases Kind.lawful_smooth.mul standsA.formed standsB.formed standsA.smooth standsB.smooth with
    ⟨failed, f, member, stops⟩ | ⟨r, returned, multiplies⟩
  · exact .inl ⟨failed, either member stops⟩
  · refine .inr ⟨r, returned, ⟨mul_wellFormed standsA.formed standsB.formed returned, multiplies.kept,
      fun ρ inside => ?_, fun ρ inside => ?_⟩, fun f member stops => ?_⟩
    · exact multiplies.defined ρ (standsA.regular ρ inside) (standsB.regular ρ inside)
    · have value := multiplies.value ρ (standsA.regular ρ inside) (standsB.regular ρ inside)
      change realValue ρ r = realValue ρ a * realValue ρ b at value
      rw [value, standsA.value ρ inside, standsB.value ρ inside]
      rfl
    · obtain ⟨g, among, stops⟩ := multiplies.stops f member stops
      exact either among stops

/-- A product of several expressions is returned, or something in a factor is too long. -/
theorem mulAll (standsA : Stands D V a) (stopsA : ∀ f ∈ a.factors, StopsProduct f → cause) {others : List Expr}
    (each : ∀ b ∈ others, Stands D (fun ρ => realValue ρ b) b)
    (stops : ∀ b ∈ others, ∀ f ∈ b.factors, StopsProduct f → cause) :
    (mulAll a others = .error .unsupported ∧ cause) ∨
      ∃ r, Expr.mulAll a others = .ok r ∧ Stands D (fun ρ => V ρ * (others.map (realValue ρ)).prod) r := by
  unfold Expr.mulAll
  induction others generalizing a V with
  | nil => exact .inr ⟨a, rfl, standsA.congr fun ρ _ => by simp⟩
  | cons b rest ih =>
    rw [List.foldlM_cons]
    rcases standsA.mul (each b List.mem_cons_self) stopsA (stops b List.mem_cons_self) with
      ⟨failed, because⟩ | ⟨product, returned, stands, stopsProduct⟩
    · exact .inl ⟨by rw [failed]; rfl, because⟩
    · rw [returned]
      rcases ih stands stopsProduct (fun c later => each c (List.mem_cons_of_mem _ later))
        fun c later => stops c (List.mem_cons_of_mem _ later) with failed | ⟨r, returned, stands⟩
      · exact .inl failed
      · exact .inr ⟨r, returned, stands.congr fun ρ _ => by simp [mul_assoc]⟩

end Stands

theorem meets_of_outcome {α : Type} {y : Except Fault α} {post : α → Prop}
    (outcome : (y = .error .unsupported ∧ cause) ∨ ∃ r, y = .ok r ∧ post r) :
    Meets context (RefusedFor cause) (liftM y : Engine α) post := by
  rcases outcome with ⟨failed, because⟩ | ⟨r, returned, holds⟩
  · exact Meets.lift (fun s returned => by cases failed.symm.trans returned) fun fault same =>
      ⟨Except.error.inj (same.symm.trans failed), because⟩
  · exact (Meets.of_ok returned).imp fun s same => same ▸ holds

/-- Differentiating the first expression, with the built-in functions, returns the second. -/
def Derivative (x : String) (e r : Expr) : Prop :=
  ∃ context, KnowsElementary context ∧ Yields context (derive x e) r

/-- What differentiating the first expression makes out of it or of its parts: they themselves, their derivatives,
that of the base of a power of a sum, and the derivative of a factor times the other factors. -/
inductive Arises (x : String) : Expr → Expr → Prop
  | self (e : Expr) : Arises x e e
  | derivative {e r : Expr} : Derivative x e r → Arises x e r
  | argument {c p : ℚ} {name : String} {u r : Expr} : Arises x u r →
    Arises x (call c name [u] p) r
  | base {c p : ℚ} {terms : List Expr} {r : Expr} : Arises x (sum 1 terms 1) r →
    Arises x (sum c terms p) r
  | term {c p : ℚ} {terms : List Expr} {t r : Expr} : t ∈ terms → Arises x t r →
    Arises x (sum c terms p) r
  | factor {c : ℚ} {factors : List Expr} {f r : Expr} : f ∈ factors → Arises x f r →
    Arises x (product c factors) r
  | others {c : ℚ} {factors : List Expr} {f d r : Expr} {i : ℕ} : (f, i) ∈ factors.zipIdx →
    Derivative x f d → mulAll d (factors.eraseIdx i) = .ok r →
    Arises x (product c factors) r
  | exponent {c : ℚ} {base u r : Expr} : Arises x u r → Arises x (exponential c base u) r

def Overlong (x : String) (e : Expr) : Prop := ∃ r, Arises x e r ∧ HasLongKey r

theorem RefusedFor.imp {other : Prop} (implies : cause → other) (fault : Fault) (refused : RefusedFor cause fault) :
    RefusedFor other fault := ⟨refused.1, implies refused.2⟩

/-- What is differentiated, with its slope. -/
def Differentiates (context : Context) (x : String) (e : Expr) : Prop :=
  Meets context (RefusedFor (Overlong x e)) (derive x e)
    (Stands {ρ | NoPole ρ e} fun ρ => slope x ρ e)

namespace Differentiates

/-- On a part of the domain, with the cause of a refusal seen from outside. -/
theorem within (knows : KnowsElementary context) (differentiates : Differentiates context x u) (sub : D ⊆ {ρ | NoPole ρ u})
    (cause_of : ∀ r, Arises x u r → HasLongKey r → cause) :
    Meets context (RefusedFor cause) (derive x u) fun r =>
      Stands D (fun ρ => slope x ρ u) r ∧ Derivative x u r := by
  have reached := differentiates.with_run.accept fun fault refused => refused.1
  refine (reached.accept (RefusedFor.imp ?_)).imp fun r both => ⟨both.1.mono sub, context, knows, both.2⟩
  rintro ⟨r, arises, long⟩
  exact cause_of r arises long

end Differentiates

theorem derivatives_eq (x : String) (es : List Expr) : derivatives x es = es.map (derive x) := by
  induction es with
  | nil => rfl
  | cons e rest ih => rw [derivatives, ih, List.map_cons]

/-- Nothing changes with an unknown that does not occur. -/
theorem meets_no_slope (absent : e.contains x = false) {accepts : Fault → Prop} :
    Meets context accepts (return zero) (Stands D fun ρ => slope x ρ e) :=
  Meets.pure ((Stands.number D 0).congr fun ρ _ => by rw [slope_of_not_contains absent, Rat.cast_zero])

/-- A whole power of what can stand under one. -/
theorem WholePower.stands (whole : WholePower f) (one : f.power = 1) {p : ℚ} (integer : p.den = 1)
    (regular : ∀ ρ ∈ D, NoPole ρ f) (nonzero : p < 0 → ∀ ρ ∈ D, realValue ρ f ≠ 0) :
    ∃ r, f.powRat p = .ok r ∧ Stands D (fun ρ => realValue ρ f ^ p.num) r ∧
      ∀ g ∈ r.factors, StopsProduct g → StopsProduct f := by
  have base : f.withPower 1 = f := by rw [← one, withPower_power]
  have raised := whole.factor.powRat_withPower whole.plain p
  rw [base] at raised
  refine ⟨_, raised, ?_, ?_⟩
  · split
    next zero => exact (Stands.number D 1).congr fun ρ _ => by simp [zero]
    next other =>
      have factor := whole.factor.withPower integer other
      refine ⟨factor.formed, factor.smooth, fun ρ inside => ?_, fun ρ _ => by rw [whole.value, base]⟩
      exact whole.regular ρ (regular ρ inside) p fun negative => base.symm ▸ nonzero negative ρ inside
  · split
    · intro g member
      cases member
    next other =>
      intro g member stops
      have factor := whole.factor.withPower integer other
      have single : (f.withPower p).factors = [f.withPower p] := by
        have unit := unit_of_coeff factor.proper.unit
        cases shape : f.withPower p with
        | number => rw [shape] at factor; cases factor.proper.notNumber
        | product => rw [shape] at factor; cases factor.proper.notProduct
        | _ => rw [shape] at unit; exact congrArg (fun e => [e]) unit
      rw [single] at member
      obtain rfl := List.mem_singleton.mp member
      rcases stops with keyless | long
      · exact .inl (by rwa [hasBaseKey_withPower] at keyless)
      · rw [whole.exponent] at long
        exact absurd long (not_hasLongTerm_number p)

theorem sub_one_den {p : ℚ} (whole : p.den = 1) : (p - 1).den = 1 := by
  rw [sub_eq_add_neg]
  exact Rational.add_den whole rfl

/-- A whole number below one that is not zero is negative. -/
theorem neg_of_sub_one_neg {p : ℚ} (whole : p.den = 1) (present : p ≠ 0) (negative : p - 1 < 0) : p < 0 := by
  have small : p.num < 1 := by
    rw [← Rat.coe_int_num_of_den_eq_one whole, sub_neg] at negative
    exact_mod_cast negative
  exact Rat.num_neg.mp (lt_of_le_of_ne (by omega) (Rat.num_ne_zero.mpr present))

/-- The chain rule for a power. -/
theorem meets_derivePower {stem : Expr} {inner : Engine Expr} {p : ℚ} (whole : WholePower stem)
    (one : stem.power = 1) (integer : p.den = 1) (present : p ≠ 0) (regular : ∀ ρ ∈ D, NoPole ρ stem)
    (nonzero : p < 0 → ∀ ρ ∈ D, realValue ρ stem ≠ 0) (stops : StopsProduct stem → cause)
    (derived : Meets context (RefusedFor cause) inner fun r =>
      Stands D V r ∧ (p ≠ 1 → ∀ f ∈ r.factors, StopsProduct f → cause)) (c : ℚ) :
    Meets context (RefusedFor cause) (derivePower c stem p inner)
      (Stands D fun ρ => c * (p * realValue ρ stem ^ (p - 1).num * V ρ)) := by
  unfold derivePower
  split
  next first =>
    refine Meets.bind _ derived fun r holds => Meets.pure ((holds.1.scale c).congr fun ρ _ => ?_)
    simp [first]
  next other =>
    obtain ⟨power, raised, stands, inherits⟩ := whole.stands one (sub_one_den integer) regular fun negative =>
      nonzero (neg_of_sub_one_neg integer present negative)
    refine Meets.bind (· = power) (Meets.of_ok raised) ?_
    rintro _ rfl
    refine Meets.bind _ derived ?_
    rintro r ⟨standsInner, stopsInner⟩
    refine Meets.bind _ (meets_of_outcome ((stands.scale p).mul standsInner (fun f member stopped => ?_)
      (stopsInner other))) fun product holds => Meets.pure ((holds.1.scale c).congr fun ρ _ => rfl)
    exact stops (inherits f (mem_factors_scale member) stopped)

theorem differentiates_number (c : ℚ) : Differentiates context x (number c) :=
  meets_no_slope (e := number c) rfl

theorem differentiates_unknown {c p : ℚ} {name : String} (unknown : isVariableName x = true)
    (formed : (symbol c name p).WellFormed) (smooth : Smooth (symbol c name p)) :
    Differentiates context x (symbol c name p) := by
  unfold Differentiates
  rw [derive]
  split
  next same =>
    obtain rfl := eq_of_beq same
    have whole : p.den = 1 := by
      cases smooth with
      | unknown _ whole => exact whole
      | powerOfE => cases unknown
    have factor : SmoothFactor (symbol 1 name p) := ⟨formed.unit, ⟨rfl, rfl, rfl⟩, .unknown unknown whole⟩
    have base : WholePower (bare name) := by
      refine (SmoothFactor.cases (factor.withPower rfl one_ne_zero)).resolve_right fun power => ?_
      have key := power.key
      rw [baseKey] at key
      exact isVariableName_ne_e unknown ((guarded_identifier factor.identifier 1 1).symm.trans key)
    obtain ⟨r, raised, stands, -⟩ := base.stands (D := {ρ | NoPole ρ (symbol c name p)}) rfl (sub_one_den whole)
      (fun ρ _ => .symbol fun negative => absurd negative (by decide)) fun negative ρ inside => by
        cases inside with
        | symbol nonzero => exact nonzero (neg_of_sub_one_neg whole formed.2.1 negative)
    refine Meets.bind (· = r) (Meets.of_ok raised) ?_
    rintro _ rfl
    refine Meets.pure (((stands.scale p).scale c).congr fun ρ regular => ?_)
    have value : realValue ρ (bare name) = ρ name := by simp [bare, realValue, isVariableName_ne_e unknown]
    rw [slope_unknown unknown whole regular, value]
  next other => exact meets_no_slope (e := symbol c name p) (by simpa [contains] using other)

theorem hasBaseKey_inert (name : String) (u : Expr) : (inert name [u]).hasBaseKey = u.isLegible := by
  simp [hasBaseKey, inert, face, faces, singleFace, isLegible]

/-- What stops a call as a factor. -/
theorem stopsProduct_inert {name : String} (stops : StopsProduct (inert name [u])) : u.isLegible = false := by
  rcases stops with keyless | long
  · exact (hasBaseKey_inert name u).symm.trans keyless
  · exact absurd long (not_hasLongTerm_number 1)

/-- A call of sine or cosine. -/
theorem stands_inert {name : String} (named : name = "sin" ∨ name = "cos") (formed : u.WellFormed)
    (smooth : Smooth u) (regular : ∀ ρ ∈ D, NoPole ρ u) :
    Stands D (fun ρ => circular name [realValue ρ u]) (inert name [u]) := by
  have call : (inert name [u]).WellFormed := by
    refine ⟨one_ne_zero, one_ne_zero, ?_, ?_, formed, trivial⟩
    · rcases named with rfl | rfl <;> decide
    · rcases named with rfl | rfl <;> decide
  refine ⟨call, .circular named smooth rfl, fun ρ inside => ?_, fun ρ _ => ?_⟩
  · exact .call (by simpa using regular ρ inside) fun negative => absurd negative (by decide)
  · simp [inert, realValue, realValues]

/-- Sine and cosine of a smooth expression. -/
theorem stands_circular (formed : u.WellFormed) (smooth : Smooth u) (regular : ∀ ρ ∈ D, NoPole ρ u) :
    (Stands D (fun ρ => Real.sin (realValue ρ u)) (Elementary.sin u) ∧
      ∀ f ∈ (Elementary.sin u).factors, StopsProduct f → u.isLegible = false) ∧
    Stands D (fun ρ => Real.cos (realValue ρ u)) (Elementary.cos u) ∧
      ∀ f ∈ (Elementary.cos u).factors, StopsProduct f → u.isLegible = false := by
  have stands := Stands.self formed smooth regular
  have opposite := stands.neg
  have turned {name : String} (named : name = "sin" ∨ name = "cos") := stands_inert named opposite.formed
    opposite.smooth opposite.regular
  have stops {name : String} {e : Expr} (legible : e.isLegible = u.isLegible) :
      ∀ f ∈ (inert name [e]).factors, StopsProduct f → u.isLegible = false := by
    intro f member stopped
    obtain rfl := List.mem_singleton.mp member
    exact legible ▸ stopsProduct_inert stopped
  constructor
  · rcases Elementary.sin_cases smooth with ⟨rfl, zero⟩ | call | call
    · rw [zero]
      exact ⟨(Stands.number D 0).congr fun ρ _ => by simp [realValue], by simp [Expr.zero, factors]⟩
    · rw [call]
      exact ⟨(stands_inert (.inl rfl) formed smooth regular).congr fun ρ _ => rfl, stops rfl⟩
    · rw [call]
      refine ⟨(turned (.inl rfl)).neg.congr fun ρ inside => ?_, fun f member => ?_⟩
      · rw [opposite.value ρ inside]
        simp [circular]
      · exact stops (isLegible_neg u) f (by simpa [neg, inert, withCoeff, factors, unit] using member)
  · rcases Elementary.cos_cases smooth with ⟨rfl, one⟩ | call | call
    · rw [one]
      exact ⟨(Stands.number D 1).congr fun ρ _ => by simp [realValue], by simp [Expr.one, factors]⟩
    · rw [call]
      exact ⟨(stands_inert (.inr rfl) formed smooth regular).congr fun ρ _ => rfl, stops rfl⟩
    · rw [call]
      refine ⟨(turned (.inr rfl)).congr fun ρ inside => ?_, stops (isLegible_neg u)⟩
      rw [opposite.value ρ inside]
      simp [circular]

/-- The derivative of the sine or cosine of an expression. -/
theorem meets_deriveCall (knows : KnowsElementary context) {name : String} (named : name = "sin" ∨ name = "cos")
    (formed : u.WellFormed) (smooth : Smooth u) (regular : ∀ ρ ∈ D, NoPole ρ u)
    (differentiates : Differentiates context x u) (illegible : u.isLegible = false → cause)
    (inside : ∀ r, Arises x u r → HasLongKey r → cause) :
    Meets context (RefusedFor cause) (deriveCall x name [u] (derive x u)) fun r =>
      Stands D (fun ρ => slope x ρ (inert name [u])) r ∧ ∀ f ∈ r.factors, StopsProduct f → cause := by
  obtain ⟨⟨sine, stopsSine⟩, cosine, stopsCosine⟩ := stands_circular formed smooth regular
  have inner := differentiates.within knows regular inside
  -- Whatever the outer derivative is, it is multiplied with the inner one.
  have chain {outer : Expr} {F : (String → ℝ) → ℝ} (stands : Stands D F outer)
      (stops : ∀ f ∈ outer.factors, StopsProduct f → u.isLegible = false)
      (rule : ∀ ρ ∈ D, F ρ * slope x ρ u = slope x ρ (inert name [u])) :
      Meets context (RefusedFor cause) (do let d ← derive x u; Expr.mul outer d : Engine Expr) fun r =>
        Stands D (fun ρ => slope x ρ (inert name [u])) r ∧ ∀ f ∈ r.factors, StopsProduct f → cause := by
    refine Meets.bind _ inner ?_
    rintro d ⟨standsD, derived⟩
    refine (meets_of_outcome (stands.mul standsD (fun f member stopped => illegible (stops f member stopped))
      fun f member stopped => inside d (.derivative derived) (.inr ⟨f, member, stopped⟩))).imp fun r holds => ?_
    exact ⟨holds.1.congr rule, holds.2⟩
  rcases named with rfl | rfl
  · refine Meets.bind (· = Elementary.cos u) (knows.meets_cos formed) ?_
    rintro _ rfl
    exact chain cosine stopsCosine fun ρ inside => (slope_circular smooth (regular ρ inside)).1.symm
  · refine Meets.bind (· = (Elementary.sin u).neg) ?_ ?_
    · refine Meets.bind (· = Elementary.sin u) (knows.meets_sin formed) ?_
      rintro _ rfl
      exact Meets.pure rfl
    rintro _ rfl
    refine chain sine.neg (fun f member => stopsSine f ?_) fun ρ inside =>
      (slope_circular smooth (regular ρ inside)).2.symm
    rwa [Expr.neg, factors_withCoeff] at member

theorem differentiates_circular (knows : KnowsElementary context) {c p : ℚ} {name : String}
    (formed : (call c name [u] p).WellFormed) (smooth : Smooth (call c name [u] p))
    (differentiates : Differentiates context x u) : Differentiates context x (call c name [u] p) := by
  unfold Differentiates
  rw [derive]
  split
  next present =>
    have ⟨_, nonzero, _, _, formedU, _⟩ := formed
    have ⟨named, smoothU, whole⟩ : (name = "sin" ∨ name = "cos") ∧ Smooth u ∧ p.den = 1 := by
      cases smooth with
      | circular named inner whole => exact ⟨named, inner, whole⟩
    have regular : ∀ ρ, NoPole ρ (call c name [u] p) → NoPole ρ u := by
      rintro ρ ⟨⟩
      simp_all
    have stem := stands_inert (D := {ρ | NoPole ρ (call c name [u] p)}) named formedU smoothU regular
    have factor : SmoothFactor (inert name [u]) := ⟨stem.formed, ⟨rfl, rfl, rfl⟩, stem.smooth⟩
    have power : WholePower (inert name [u]) := factor.cases.resolve_right fun power => by cases power.base
    have stops (stopped : StopsProduct (inert name [u])) : Overlong x (call c name [u] p) := by
      refine ⟨_, .self _, .inr ⟨call 1 name [u] p, List.mem_singleton_self _, ?_⟩⟩
      exact stopped.imp_right fun long => absurd long (not_hasLongTerm_number 1)
    have derived : Meets context (RefusedFor (Overlong x (call c name [u] p)))
        (deriveCall x name [u] (derive x u)) fun r =>
          Stands {ρ | NoPole ρ (call c name [u] p)} (fun ρ => slope x ρ (inert name [u])) r ∧
            ∀ f ∈ r.factors, StopsProduct f → Overlong x (call c name [u] p) :=
      meets_deriveCall knows named formedU smoothU regular differentiates
        (fun illegible => stops (.inl ((hasBaseKey_inert name u).trans illegible))) fun r arises long => ⟨r, .argument arises, long⟩
    refine (meets_derivePower power rfl whole nonzero stem.regular ?_ stops
      (derived.imp fun r holds => ⟨holds.1, fun _ => holds.2⟩) c).imp fun r stands =>
        stands.congr fun ρ inside => (slope_call smooth inside).symm
    intro negative ρ inside
    cases inside with
    | call _ nonzero => exact nonzero negative
  next absent => exact meets_no_slope (e := call c name [u] p) (by simpa [contains] using absent)

/-- The sum of the derivatives of terms, each with a share. -/
theorem meets_sumSlopes (knows : KnowsElementary context) {terms : List Expr} (regular : ∀ t ∈ terms, ∀ ρ ∈ D, NoPole ρ t)
    (differentiates : ∀ t ∈ terms, Differentiates context x t)
    (inside : ∀ t ∈ terms, ∀ r, Arises x t r → HasLongKey r → cause) (share : ℚ) :
    Meets context (RefusedFor cause)
      (terms.foldlM (fun total t => do Expr.add total ((← derive x t).scale share)) zero : Engine Expr)
      (Stands D fun ρ => share * (terms.map (slope x ρ)).sum) := by
  have start : Stands D 0 zero ∧ (HasLongTerm zero → cause) :=
    ⟨(Stands.number D 0).congr fun ρ _ => Rat.cast_zero, fun long => absurd long (not_hasLongTerm_number 0)⟩
  refine (Meets.foldlM_sum (fun V total => Stands D V total ∧ (HasLongTerm total → cause))
    (fun t ρ => share * slope x ρ t) start ?_).imp fun total holds => holds.1.congr fun ρ _ => ?_
  · rintro V total ⟨stands, long⟩ t member
    refine Meets.bind _ ((differentiates t member).within knows (regular t member) (inside t member)) ?_
    rintro d ⟨standsD, derived⟩
    refine meets_of_outcome (stands.add (standsD.scale share) ?_)
    rintro (longTotal | longTerm)
    · exact long longTotal
    · exact inside t member d (.derivative derived) (.inl longTerm.of_scale)
  · rw [zero_add, Pi.list_sum_apply, List.map_map, ← List.sum_map_mul_left]
    rfl

theorem derive_sum (x : String) (c : ℚ) (terms : List Expr) (p : ℚ) :
    derive x (sum c terms p) = if anyContains x terms then
        derivePower (if p = 1 then 1 else c) (sum 1 terms 1) p
          ((sortTerms terms).foldlM
            (fun total t => do Expr.add total ((← derive x t).scale (if p = 1 then c else 1))) zero)
      else return zero := by
  have steps : sortByRank TermRank.le
      (terms.zipWith (fun t step => (t.termRank t.face, step)) (derivatives x terms)) =
        (sortTerms terms).map (derive x) := by
    rw [derivatives_eq, List.zipWith_map_right, List.zipWith_self, sortByRank_terms]
  rw [derive]
  dsimp only
  rw [steps, List.foldlM_map]

/-- The sum of the derivatives of its terms is the derivative of a sum. -/
theorem derivative_sum (knows : KnowsElementary context) {terms : List Expr} (present : anyContains x terms = true)
    (yields : Yields context ((sortTerms terms).foldlM
      (fun total t => do Expr.add total ((← derive x t).scale 1)) zero : Engine Expr) r) :
    Derivative x (sum 1 terms 1) r := by
  obtain ⟨looks, later, run⟩ := yields
  refine ⟨context, knows, looks, later, ?_⟩
  rw [derive_sum, if_pos present, derivePower, if_pos rfl]
  simp only [if_true]
  rw [run_bind, run]
  exact congrArg (fun s => (Except.ok s, later)) (scale_one r)

theorem differentiates_sum (knows : KnowsElementary context) {c p : ℚ} {terms : List Expr} (formed : (sum c terms p).WellFormed)
    (smooth : Smooth (sum c terms p)) (differentiates : ∀ t ∈ terms, Differentiates context x t) :
    Differentiates context x (sum c terms p) := by
  unfold Differentiates
  rw [derive_sum]
  split
  next present =>
    have ⟨_, nonzero, _⟩ := formed
    have ⟨smoothTerms, whole⟩ : (∀ t ∈ terms, Smooth t) ∧ p.den = 1 := by
      cases smooth with
      | sum each whole => exact ⟨each, whole⟩
    have regular : ∀ t ∈ terms, ∀ ρ, NoPole ρ (sum c terms p) → NoPole ρ t := by
      rintro t member ρ ⟨⟩
      simp_all
    have sorted {t : Expr} (member : t ∈ sortTerms terms) : t ∈ terms := (sortTerms_perm terms).mem_iff.mp member
    have factor : SmoothFactor (sum 1 terms 1) :=
      ⟨⟨one_ne_zero, one_ne_zero, formed.2.2⟩, ⟨rfl, rfl, rfl⟩, .sum smoothTerms rfl⟩
    have power : WholePower (sum 1 terms 1) := factor.cases.resolve_right fun power => by cases power.base
    have regularBase : ∀ ρ ∈ {ρ | NoPole ρ (sum c terms p)}, NoPole ρ (sum 1 terms 1) := fun ρ inside =>
      .sum (fun t member => regular t member ρ inside) fun negative => absurd negative (by decide)
    have stops (stopped : StopsProduct (sum 1 terms 1)) : Overlong x (sum c terms p) :=
      ⟨_, .base (.self _), .inr ⟨_, List.mem_singleton_self _, stopped⟩⟩
    have slopes : Meets context (RefusedFor (Overlong x (sum c terms p)))
        ((sortTerms terms).foldlM
          (fun total t => do Expr.add total ((← derive x t).scale (if p = 1 then c else 1))) zero) fun r =>
        Stands {ρ | NoPole ρ (sum c terms p)}
          (fun ρ => (if p = 1 then c else 1 : ℚ) * ((sortTerms terms).map (slope x ρ)).sum) r :=
      meets_sumSlopes knows (fun t member => regular t (sorted member))
        (fun t member => differentiates t (sorted member))
        (fun t member r arises long => ⟨r, .term (sorted member) arises, long⟩) (if p = 1 then c else 1)
    have derived : Meets context (RefusedFor (Overlong x (sum c terms p)))
        ((sortTerms terms).foldlM
          (fun total t => do Expr.add total ((← derive x t).scale (if p = 1 then c else 1))) zero) fun r =>
        Stands {ρ | NoPole ρ (sum c terms p)}
          (fun ρ => (if p = 1 then c else 1 : ℚ) * ((sortTerms terms).map (slope x ρ)).sum) r ∧
        (p ≠ 1 → ∀ f ∈ r.factors, StopsProduct f → Overlong x (sum c terms p)) := by
      refine (slopes.with_run.accept fun fault refused => refused.1).imp ?_
      rintro total ⟨stands, yields⟩
      refine ⟨stands, fun other f member stopped => ?_⟩
      rw [if_neg other] at yields
      exact ⟨total, .base (.derivative (derivative_sum knows present yields)), .inr ⟨f, member, stopped⟩⟩
    refine (meets_derivePower power rfl whole nonzero regularBase ?_ stops derived _).imp ?_
    · intro negative ρ inside
      cases inside with
      | sum _ nonzero => exact nonzero negative
    · intro r stands
      refine stands.congr fun ρ inside => ?_
      rw [slope_sum smooth inside, ((sortTerms_perm terms).map (slope x ρ)).sum_eq]
      split
      · rw [Rat.cast_one]
        ring
      · rw [Rat.cast_one, one_mul]
  next absent => exact meets_no_slope (e := sum c terms p) (by simpa [contains] using absent)

/-- One derived factor times the others is added to what there is. -/
theorem meets_withOthers (knows : KnowsElementary context) {c : ℚ} {factors : List Expr} {total : Expr} {i : ℕ}
    (stands : ∀ f ∈ factors, Stands D (fun ρ => realValue ρ f) f)
    (regular : ∀ f ∈ factors, ∀ ρ ∈ D, NoPole ρ f) (listed : (f, i) ∈ factors.zipIdx)
    (differentiates : Differentiates context x f) (standsTotal : Stands D V total)
    (long : HasLongTerm total → Overlong x (product c factors)) :
    Meets context (RefusedFor (Overlong x (product c factors)))
      (withOthers factors total (derive x f, i)) fun r =>
        Stands D (V + fun ρ => slope x ρ f * ((factors.eraseIdx i).map (realValue ρ)).prod) r ∧
          (HasLongTerm r → Overlong x (product c factors)) := by
  have member : f ∈ factors := List.fst_mem_of_mem_zipIdx listed
  have inside (r : Expr) (arises : Arises x f r) (long : HasLongKey r) :
      Overlong x (product c factors) := ⟨r, .factor member arises, long⟩
  unfold withOthers
  refine Meets.bind _ (differentiates.within knows (regular f member) inside) ?_
  rintro d ⟨standsD, derived⟩
  dsimp only
  split
  next vanishes =>
    refine Meets.pure ⟨standsTotal.congr fun ρ domain => ?_, long⟩
    have none := standsD.value ρ domain
    rw [eq_zero_of_isZero vanishes] at none
    simp [← none, zero, realValue]
  next =>
    have kept {g : Expr} (other : g ∈ factors.eraseIdx i) : g ∈ factors := List.mem_of_mem_eraseIdx other
    have product := standsD.mulAll
      (fun g among stops => inside d (.derivative derived) (.inr ⟨g, among, stops⟩))
      (fun g other => stands g (kept other)) fun g other h among stops =>
        ⟨g, .factor (kept other) (.self g), .inr ⟨h, among, stops⟩⟩
    refine Meets.bind (fun t =>
      Stands D (fun ρ => slope x ρ f * ((factors.eraseIdx i).map (realValue ρ)).prod) t ∧
        Expr.mulAll d (factors.eraseIdx i) = .ok t) (meets_of_outcome (product.imp_right ?_)) ?_
    · rintro ⟨t, returned, standsT⟩
      exact ⟨t, returned, standsT, returned⟩
    rintro t ⟨standsT, returned⟩
    refine meets_of_outcome (standsTotal.add standsT ?_)
    rintro (longTotal | longTerm)
    · exact long longTotal
    · exact ⟨t, .others listed derived returned, .inl longTerm⟩

theorem derive_product (x : String) (c : ℚ) (factors : List Expr) :
    derive x (product c factors) = if anyContains x factors then do
        let total ← factors.zipIdx.foldlM (fun total item => withOthers factors total (derive x item.1, item.2)) zero
        return total.scale c
      else return zero := by
  rw [derive, derivatives_eq, List.zipIdx_map, List.foldlM_map]
  rfl

theorem differentiates_product (knows : KnowsElementary context) {c : ℚ} {factors : List Expr} (formed : (product c factors).WellFormed)
    (smooth : Smooth (product c factors)) (differentiates : ∀ f ∈ factors, Differentiates context x f) :
    Differentiates context x (product c factors) := by
  unfold Differentiates
  rw [derive_product]
  split
  next present =>
    have regular : ∀ f ∈ factors, ∀ ρ ∈ {ρ | NoPole ρ (product c factors)}, NoPole ρ f := by
      rintro f member ρ ⟨⟩
      simp_all
    have stands : ∀ f ∈ factors, Stands {ρ | NoPole ρ (product c factors)} (fun ρ => realValue ρ f) f :=
      fun f member => .self (allWellFormed_iff.mp formed.2.2 f member) (smooth.each f member) (regular f member)
    have start : Stands {ρ | NoPole ρ (product c factors)} 0 zero ∧
        (HasLongTerm zero → Overlong x (product c factors)) :=
      ⟨(Stands.number _ 0).congr fun ρ _ => Rat.cast_zero, fun long => absurd long (not_hasLongTerm_number 0)⟩
    refine Meets.bind _ (Meets.foldlM_sum
      (fun V total => Stands {ρ | NoPole ρ (product c factors)} V total ∧
        (HasLongTerm total → Overlong x (product c factors)))
      (fun item ρ => slope x ρ item.1 * ((factors.eraseIdx item.2).map (realValue ρ)).prod) start
      fun V total holds item listed => meets_withOthers knows stands regular listed
        (differentiates item.1 (List.fst_mem_of_mem_zipIdx listed)) holds.1 holds.2) ?_
    rintro total ⟨standsTotal, -⟩
    refine Meets.pure ((standsTotal.scale c).congr fun ρ inside => ?_)
    rw [slope_product smooth inside, zero_add, Pi.list_sum_apply, List.map_map]
    rfl
  next absent => exact meets_no_slope (e := product c factors) (by simpa [contains] using absent)

theorem differentiates_exponential (knows : KnowsElementary context) (unknown : isVariableName x = true) {c : ℚ}
    (formed : (exponential c (bare "e") u).WellFormed) (smooth : Smooth (exponential c (bare "e") u))
    (differentiates : Differentiates context x u) : Differentiates context x (exponential c (bare "e") u) := by
  unfold Differentiates
  have constant : (bare "e").contains x = false := by
    simpa [bare, contains] using (isVariableName_ne_e unknown).symm
  rw [derive]
  simp only [constant, Bool.false_or, Bool.false_eq_true, if_false]
  split
  next present =>
    have smoothU : Smooth u := by
      cases smooth with
      | exponential inner => exact inner
    have regular : ∀ ρ ∈ {ρ | NoPole ρ (exponential c (bare "e") u)}, NoPole ρ u := by
      rintro ρ ⟨⟩
      simp_all
    have whole := Stands.self formed smooth fun ρ inside => inside
    have inside (r : Expr) (arises : Arises x u r) (long : HasLongKey r) :
        Overlong x (exponential c (bare "e") u) := ⟨r, .exponent arises, long⟩
    refine Meets.bind _ (differentiates.within knows regular inside) ?_
    rintro d ⟨standsD, derived⟩
    refine Meets.bind (· = one) knows.meets_log_e ?_
    rintro _ rfl
    refine Meets.bind _ (meets_of_outcome (standsD.mul (Stands.number _ 1) (fun f member stops =>
      inside d (.derivative derived) (.inr ⟨f, member, stops⟩)) fun f member => absurd member List.not_mem_nil)) fun rate holds => ?_
    refine Meets.bind (· = rate) (Meets.pure rfl) ?_
    rintro _ rfl
    refine (meets_of_outcome (whole.mul holds.1 (fun f member stops =>
      ⟨_, .self _, .inr ⟨f, member, stops⟩⟩) holds.2)).imp fun r holds => holds.1.congr fun ρ inside => ?_
    rw [slope_exponential smoothU (regular ρ inside)]
    simp
  next absent => exact meets_no_slope (e := exponential c (bare "e") u) (by simpa [contains, constant] using absent)

/-- Differentiating a smooth expression gives its slope. -/
theorem Smooth.differentiates (smooth : Smooth e) (formed : e.WellFormed) (knows : KnowsElementary context)
    (unknown : isVariableName x = true) : Differentiates context x e := by
  induction smooth with
  | number c => exact differentiates_number c
  | unknown named whole => exact differentiates_unknown unknown formed (.unknown named whole)
  | powerOfE c p => exact differentiates_unknown unknown formed (.powerOfE c p)
  | circular named inner whole ih =>
    exact differentiates_circular knows formed (.circular named inner whole) (ih formed.2.2.2.2.1)
  | sum each whole ih =>
    exact differentiates_sum knows formed (.sum each whole) fun t member =>
      ih t member (allWellFormed_iff.mp formed.2.2.2 t member)
  | product each ih =>
    exact differentiates_product knows formed (.product each) fun f member =>
      ih f member (allWellFormed_iff.mp formed.2.2 f member)
  | exponential inner ih =>
    exact differentiates_exponential knows unknown formed (.exponential inner) (ih formed.2.2.2)

end Expr
end ExactAlgebra
