import ExactAlgebra.Engine.Substitution
import ExactAlgebra.Proofs.Agreement
import ExactAlgebra.Proofs.Collection
import Mathlib

/-! Numbers put for an unknown. Rebuilding a polynomial with a number in the place of an unknown computes
the polynomial at that number, and never stops for want of a value. Expanded, a polynomial in that one
unknown comes to its value. -/
namespace ExactAlgebra.Expr
open Engine
open MvPolynomial (C X)

/-- The fault does not say that there is no value. -/
def LeavesOpen (fault : Fault) : Prop :=
  (fault.kind == .divisionByZero || fault.kind == .undefined) = false

/-- Something is too long: an exponent to be written out, or a power of a number. -/
def TooLong (fault : Fault) : Prop := fault = .unsupported ∨ ∃ bits, fault = .powerTooLarge bits

theorem TooLong.leavesOpen {fault : Fault} (long : TooLong fault) : LeavesOpen fault := by
  rcases long with rfl | ⟨bits, rfl⟩ <;> rfl

/-- An expression in normal form of the polynomial. -/
structure Denotes (q : MvPolynomial String ℚ) (e : Expr) : Prop where
  poly : IsPolynomial e
  value : denote e = q

noncomputable def putFor (x : String) (r : ℚ) : MvPolynomial String ℚ →ₐ[ℚ] MvPolynomial String ℚ :=
  MvPolynomial.aeval fun name => if name = x then C r else X name

/-- In the blocks of a context, the expression with `r` put for `x` and expanded comes to something
with the property; whatever stops the computation leaves open whether there is a value. -/
def ComesTo (context : Context) (e : Expr) (x : String) (r : ℚ) (post : Expr → Prop) : Prop :=
  ∀ guard : Deadline.Guard, 0 < guard.depth → Meets (block context guard) LeavesOpen
    (do (← e.substitute x (.number r)).expand) post

variable {context : Context} {a b e : Expr} {q s : MvPolynomial String ℚ} {x : String}

theorem denotes_number (c : ℚ) : Denotes (C c) (number c) := ⟨⟨trivial, .number c⟩, rfl⟩

theorem Denotes.scale (denotes : Denotes q e) (c : ℚ) : Denotes (C c * q) (e.scale c) :=
  ⟨⟨denotes.poly.formed.scale c, denotes.poly.built.scale c⟩, by rw [denote_scale, denotes.value]⟩

theorem meets_sum (denotesA : Denotes q a) (denotesB : Denotes s b) :
    Meets context TooLong (liftM (add a b)) (Denotes (q + s)) := by
  refine Meets.lift (fun r returned => ?_) fun fault failed => ?_
  · obtain ⟨poly, value⟩ := denote_add denotesA.poly denotesB.poly returned
    exact ⟨poly, by rw [value, denotesA.value, denotesB.value]⟩
  · rcases add_outcome a b with ⟨r, returned⟩ | ⟨refused, -⟩
    · cases failed.symm.trans returned
    · cases failed.symm.trans refused
      exact .inl rfl

theorem meets_product (denotesA : Denotes q a) (denotesB : Denotes s b) :
    Meets context TooLong (liftM (mul a b)) (Denotes (q * s)) := by
  refine Meets.lift (fun r returned => ?_) fun fault failed => ?_
  · obtain ⟨poly, value⟩ := denote_mul denotesA.poly denotesB.poly returned
    exact ⟨poly, by rw [value, denotesA.value, denotesB.value]⟩
  · rcases mul_built denotesA.poly.formed denotesB.poly.formed denotesA.poly.built denotesB.poly.built with
      ⟨refused, -⟩ | ⟨r, returned, -⟩
    · cases failed.symm.trans refused
      exact .inl rfl
    · cases failed.symm.trans returned

theorem Denotes.powRat (denotes : Denotes q a) {p : ℚ} (power : Scheme.polynomial.powers p) :
    a.powRat p = .error (.powerTooLarge maxIntegerBits) ∨
      ∃ r, a.powRat p = .ok r ∧ Denotes (q ^ p.num.toNat) r := by
  have closed (k : ℚ) (powerK : Scheme.polynomial.powers k) : Scheme.polynomial.powers (k * p) :=
    ⟨(mul_num powerK.1 power.1).2, mul_pos powerK.2 power.2⟩
  have negative : ¬ p < 0 := power.2.le.not_gt
  rcases powRat_built denotes.poly.formed denotes.poly.built power.1 closed with
    ⟨-, large⟩ | ⟨-, low⟩ | ⟨r, returned, raises⟩
  · exact .inl large
  · exact absurd power.2 low.not_gt
  · refine .inr ⟨r, returned, ⟨powRat_wellFormed denotes.poly.formed returned, raises.built⟩,
      MvPolynomial.funext fun ρ => ?_⟩
    rw [map_pow, eval_denote raises.built, ← denotes.value, eval_denote denotes.poly.built,
      raises.value ρ denotes.poly.built.defined fun below => absurd below negative, zpow_num power]

theorem meets_power (denotes : Denotes q a) {p : ℚ} (power : Scheme.polynomial.powers p) :
    Meets context TooLong (liftM (a.powRat p)) (Denotes (q ^ p.num.toNat)) := by
  rcases denotes.powRat power with large | ⟨r, returned, raised⟩
  · rw [large]
    exact Meets.throw (.inr ⟨_, rfl⟩)
  · refine (Meets.of_ok returned).imp ?_
    rintro _ rfl
    exact raised

theorem rebuildSum_eq (leaf : String → Option Value) (total : Expr) (terms : List Expr) :
    rebuildSum leaf total terms = terms.foldlM (fun total t => do add total (← rebuild leaf t)) total := by
  induction terms generalizing total with
  | nil => rfl
  | cons t rest ih => simp [rebuildSum, ih]

theorem rebuildProduct_eq (leaf : String → Option Value) (result : Expr) (factors : List Expr) :
    rebuildProduct leaf result factors =
      factors.foldlM (fun result f => do mul result (← rebuild leaf f)) result := by
  induction factors generalizing result with
  | nil => rfl
  | cons f rest ih => simp [rebuildProduct, ih]

section Rebuilding

variable {accepts : Fault → Prop} {M : Type} [CommRing M] [Algebra ℚ M]

/-- Arithmetic with expressions that stand for elements of an algebra is arithmetic with the elements. -/
structure Mirrors (context : Context) (accepts : Fault → Prop) (stands : M → Expr → Prop) : Prop where
  number : ∀ c, stands (algebraMap ℚ M c) (number c)
  scale : ∀ {m e}, stands m e → ∀ c, stands (algebraMap ℚ M c * m) (e.scale c)
  add : ∀ {m n a b}, stands m a → stands n b → Meets context accepts (liftM (Expr.add a b)) (stands (m + n))
  mul : ∀ {m n a b}, stands m a → stands n b → Meets context accepts (liftM (Expr.mul a b)) (stands (m * n))
  powRat : ∀ {m a p}, stands m a → Scheme.polynomial.powers p →
    Meets context accepts (liftM (a.powRat p)) (stands (m ^ p.num.toNat))

/-- Rebuilding a polynomial puts for its names what is put for them in the expression. -/
theorem Mirrors.rebuild {stands : M → Expr → Prop} (mirrors : Mirrors context accepts stands)
    {leaf : String → Option Value} {values : String → M} (built : BuiltBy .polynomial e)
    (puts : NamesHave (fun name => ∃ a, leafOf leaf name = .ok a ∧ stands (values name) a) e) :
    Meets context accepts (rebuild leaf e) (stands (MvPolynomial.aeval values (denote e))) := by
  induction built with
  | number c =>
    rw [denote, MvPolynomial.algHom_C]
    exact Meets.pure (mirrors.number c)
  | @symbol c name p _ power =>
    obtain ⟨a, found, put⟩ := puts name (List.mem_singleton_self name)
    rw [Expr.rebuild, found, denote, map_mul, map_pow, MvPolynomial.aeval_X, MvPolynomial.algHom_C]
    refine Meets.bind (· = a) (Meets.pure rfl) ?_
    rintro _ rfl
    exact Meets.bind _ (mirrors.powRat put power) fun raised holds => Meets.pure (mirrors.scale holds c)
  | @sum c terms p _ _ power ih =>
    have total : Meets context accepts (terms.foldlM (fun total t => do Expr.add total (← Expr.rebuild leaf t)) zero)
        (stands (0 + (terms.map fun t => MvPolynomial.aeval values (denote t)).sum)) := by
      refine Meets.foldlM_sum stands _ (map_zero (algebraMap ℚ M) ▸ mirrors.number 0) fun m total holds t member => ?_
      exact Meets.bind _ (ih t member (NamesHave.sum.mp puts t member)) fun rebuilt stand => mirrors.add holds stand
    rw [Expr.rebuild, rebuildSum_eq, denote, denoteSum_eq, map_mul, map_pow, map_list_sum, List.map_map,
      MvPolynomial.algHom_C]
    refine Meets.bind _ total fun total holds => ?_
    rw [zero_add] at holds
    exact Meets.bind _ (mirrors.powRat holds power) fun raised holds => Meets.pure (mirrors.scale holds c)
  | @product c factors _ ih =>
    rw [Expr.rebuild, rebuildProduct_eq, denote, denoteProduct_eq, map_mul, map_list_prod, List.map_map,
      MvPolynomial.algHom_C]
    refine Meets.foldlM_prod stands _ (mirrors.number c) fun m result holds f member => ?_
    exact Meets.bind _ (ih f member (NamesHave.product.mp puts f member)) fun rebuilt stand => mirrors.mul holds stand

end Rebuilding

/-- The names in a polynomial are identifiers and stand for unknowns. -/
theorem IsPolynomial.spelled (poly : IsPolynomial e) :
    NamesHave (fun name => Identifier name ∧ isVariableName name = true) e := by
  obtain ⟨formed, built⟩ := poly
  induction built with
  | number c => exact .number c
  | symbol named =>
    refine .symbol ⟨formed.2.2.1.resolve_right ?_, named⟩
    rw [(isVariableName_eq named).1]
    exact Bool.false_ne_true
  | sum each shared power ih =>
    exact NamesHave.sum.mpr fun t member => ih t member (allWellFormed_iff.mp formed.2.2.2 t member)
  | product each ih =>
    exact NamesHave.product.mpr fun f member => ih f member (allWellFormed_iff.mp formed.2.2 f member)

theorem denotes_bare {name : String} (spelled : Identifier name) (named : isVariableName name = true) :
    Denotes (X name) (bare name) := by
  refine ⟨⟨wellFormed_bare spelled (isVariableName_eq named).1, .symbol named Scheme.polynomial.one⟩, ?_⟩
  simp [bare, denote]

theorem denotes_mirrors (context : Context) : Mirrors context TooLong Denotes where
  number c := by
    rw [MvPolynomial.algebraMap_eq]
    exact denotes_number c
  scale denotes c := by
    rw [MvPolynomial.algebraMap_eq]
    exact denotes.scale c
  add := meets_sum
  mul := meets_product
  powRat denotes power := meets_power denotes power

/-- Rebuilding with a number for an unknown puts the number for it in the polynomial. -/
theorem meets_substitute (poly : IsPolynomial e) (r : ℚ) :
    Meets context TooLong (e.substitute x (number r)) (Denotes (putFor x r (denote e))) := by
  refine (denotes_mirrors context).rebuild poly.built fun name inside => ?_
  obtain ⟨spelled, named⟩ := poly.spelled name inside
  by_cases here : name = x
  · exact ⟨number r, by simp [leafOf, here, isCopyable], by simpa [here] using denotes_number r⟩
  · exact ⟨bare name, by simp [leafOf, here, (isVariableName_eq named).1], by simpa [here] using denotes_bare spelled named⟩

/-- In a block an expansion is stopped only by the deadline or for the length of a power. -/
theorem leavesOpen_of_stopped {limit : ℕ} (opened : 0 < context.scope.guard.depth) {fault : Fault}
    (stopped : Stopped context limit fault) : LeavesOpen fault := by
  rcases stopped with ⟨now, refused⟩ | ⟨now, later, guard, entered, expired⟩ | ⟨rfl, -⟩
  · rw [Deadline.Guard.enter, if_pos opened] at refused
    cases refused
  · unfold Deadline.Guard.check at expired
    split at expired
    · split at expired
      · cases expired
        rfl
      · cases expired
    · cases expired
  · rfl

theorem Represents.eq_number {c : ℚ} (represents : Represents (C c) e) : e = number c := by
  have other := represents_number c
  cases represents.expanded.similar other.expanded (represents.value.trans other.value.symm)
  rfl

/-- A polynomial in one unknown comes to its value at every number. -/
theorem IsPolynomial.comesTo (poly : IsPolynomial e) {p : Polynomial ℚ}
    (value : denote e = Polynomial.aeval (X x) p) (r : ℚ) :
    ComesTo context e x r (· = number (p.eval r)) := by
  have constant : putFor x r (denote e) = C (p.eval r) := by
    have here : putFor x r (X x) = algebraMap ℚ (MvPolynomial String ℚ) r := by
      simp [putFor, MvPolynomial.algebraMap_eq]
    rw [value, ← Polynomial.aeval_algHom_apply, here, Polynomial.aeval_algebraMap_apply,
      MvPolynomial.algebraMap_eq, Polynomial.coe_aeval_eq_eval]
  intro guard opened
  refine Meets.bind _ ((meets_substitute poly r).accept fun _ => TooLong.leavesOpen)
    fun rebuilt denotes => ?_
  refine ((meets_expand denotes.poly).accept fun fault => leavesOpen_of_stopped opened).imp
    fun expanded represents => ?_
  rw [denotes.value, constant] at represents
  exact represents.eq_number

end ExactAlgebra.Expr
