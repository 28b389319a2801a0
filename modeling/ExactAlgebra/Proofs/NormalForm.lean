import ExactAlgebra.Engine.Expansion
import ExactAlgebra.Proofs.Closure
import ExactAlgebra.Proofs.Computation
import Mathlib

/-! The arithmetic keeps the normal form: whatever comes out of an operation on well-formed trees is
well formed, expansion included. -/
namespace ExactAlgebra.Expr
open Engine

theorem expansions_eq (es : List Expr) : expansions es = es.map expandTree := by
  induction es with
  | nil => rfl
  | cons e es ih => simp [expansions, ih]

/-- A product is expanded factor by factor, in the order in which its factors are written. -/
theorem expandTree_product (c : Rat) (factors : List Expr) :
    expandTree (product c factors) =
      (sortFactors factors).foldlM (fun result f => do distribute result (← expandTree f))
        (number c) := by
  have steps : factors.zipWith (fun f step => (f.factorRank f.face, step)) (expansions factors) =
      (factors.map fun f => (f.factorRank f.face, f)).map fun item =>
        (item.1, expandTree item.2) := by
    rw [expansions_eq, List.zipWith_map_right, List.zipWith_self, List.map_map]
    rfl
  rw [expandTree]
  simp only [steps, sortByRank_map, sortFactors, List.foldlM_map]

theorem expandSum_eq (total : Expr) (terms : List Expr) :
    expandSum total terms = terms.foldlM (fun total t => do add total (← expandTree t)) total := by
  induction terms generalizing total with
  | nil => rfl
  | cons t rest ih => simp [expandSum, ih]

/-- Each term of one expression times each of another, added up, has the product of both sums as its value. -/
theorem meets_termProducts {context : Context} {accepts : Fault → Prop} {K : Type} [NonUnitalNonAssocSemiring K]
    {a b : Expr} (stands : K → Expr → Prop) (value : Expr → K) (none : stands 0 zero)
    (step : ∀ x ∈ a.terms, ∀ y ∈ b.terms, ∀ q total, stands q total →
      Meets context accepts (do poll; add total (← mul x y) : Engine Expr) (stands (q + value x * value y))) :
    Meets context accepts
      (a.terms.foldlM (fun total x => b.terms.foldlM (fun total y => do
        poll
        add total (← mul x y)) total) zero)
      (stands ((a.terms.map value).sum * (b.terms.map value).sum)) := by
  have loop : Meets context accepts
      (a.terms.foldlM (fun total x => b.terms.foldlM (fun total y => do
        poll
        add total (← mul x y)) total) zero)
      (stands (0 + (a.terms.map fun x => (b.terms.map fun y => value x * value y).sum).sum)) := by
    refine Meets.foldlM_sum _ _ none fun q total holds x left => ?_
    exact Meets.foldlM_sum _ _ holds fun q total holds y right => step x left y right q total holds
  have distributed : (a.terms.map fun x => (b.terms.map fun y => value x * value y).sum).sum =
      (a.terms.map value).sum * (b.terms.map value).sum := by
    rw [← List.sum_map_mul_right]
    exact congrArg List.sum (List.map_congr_left fun x _ => List.sum_map_mul_left b.terms value (value x))
  rwa [zero_add, distributed] at loop

/-- Numbers have the property, it passes to the parts of an expression, and the arithmetic keeps it. -/
structure KeptByExpansion (property : Expr → Prop) : Prop where
  number : ∀ c, property (number c)
  args : ∀ {c name args p}, property (call c name args p) → ∀ a ∈ args, property a
  call : ∀ {c name args p others}, property (call c name args p) → (∀ a ∈ others, property a) →
    property (call c name others p)
  terms : ∀ {c terms p}, property (sum c terms p) → ∀ t ∈ terms, property t
  factors : ∀ {c factors}, property (product c factors) → ∀ f ∈ factors, property f
  exponential : ∀ {c base exponent}, property (exponential c base exponent) →
    property base ∧ property exponent
  scale : ∀ {a}, property a → ∀ c, property (a.scale c)
  add : ∀ {a b r}, property a → property b → Expr.add a b = .ok r → property r
  mul : ∀ {a b r}, property a → property b → Expr.mul a b = .ok r → property r
  powRat : ∀ {a p r}, property a → Expr.powRat a p = .ok r → property r
  pow : ∀ {a b r}, property a → property b → Expr.pow a b = .ok r → property r

/-- What products and powers keep is kept by expansion, if it passes through calls. -/
theorem KeptByPowers.keptByExpansion {property : Expr → Prop} (keeps : KeptByPowers property)
    (call : ∀ {c name args p others}, property (call c name args p) → (∀ a ∈ others, property a) →
      property (call c name others p)) :
    KeptByExpansion property where
  number := keeps.number
  args := keeps.args
  call := call
  terms := keeps.terms
  factors := keeps.each
  exponential := keeps.parts
  scale holds c := keeps.scale holds c
  add := keeps.add
  mul := keeps.mul
  powRat := keeps.powRat
  pow := keeps.pow

theorem returns_expandAll {context : Context} {property : Expr → Prop} {es : List Expr}
    (each : ∀ e ∈ es, Returns context (expandTree e) property) :
    Returns context (expandAll es) fun expanded => ∀ e ∈ expanded, property e := by
  induction es with
  | nil => exact Meets.pure (by simp)
  | cons e es ih =>
    refine Meets.bind _ (each e List.mem_cons_self) fun first holdsFirst => ?_
    refine Meets.bind _ (ih fun f later => each f (List.mem_cons_of_mem _ later)) fun others holdsOthers => ?_
    exact Meets.pure (List.forall_mem_cons.mpr ⟨holdsFirst, holdsOthers⟩)

namespace KeptByExpansion

variable {context : Context} {property : Expr → Prop} (kept : KeptByExpansion property) {a b e : Expr}
include kept

theorem summand (holds : property e) : ∀ t ∈ e.terms, property t := forall_terms kept.terms holds

theorem distribute (holdsA : property a) (holdsB : property b) :
    Returns context (distribute a b) property := by
  unfold Expr.distribute
  refine Meets.bind property (Meets.foldlM (kept.number 0) fun total holds s left => ?_) fun total holds =>
    Meets.pure (kept.scale holds _)
  refine Meets.foldlM holds fun total holds t right => ?_
  refine Meets.bind _ (Meets.anyway _) fun _ _ => ?_
  refine Meets.bind property (Returns.lift fun product multiplied => ?_)
    fun product holdsProduct => Returns.lift fun next added => kept.add holds holdsProduct added
  exact kept.mul (kept.summand holdsA s left) (kept.summand holdsB t right) multiplied

theorem expandPower (holds : property a) (p : Rat) : Returns context (expandPower a p) property := by
  have repeated (n : Nat) {b : Expr} (holdsB : property b) :
      Returns context (distributeTimes b a n) property := by
    induction n generalizing b with
    | zero => exact Meets.pure holdsB
    | succ n ih => exact Meets.bind _ (kept.distribute holdsB holds) fun next holdsNext => ih holdsNext
  unfold Expr.expandPower
  split
  · exact Meets.pure holds
  split
  · exact repeated _ holds
  · exact Returns.lift fun power returned => kept.powRat holds returned

theorem expandTree (holds : property e) : Returns context (expandTree e) property := by
  induction e using Expr.induction with
  | number c => exact Meets.pure holds
  | symbol c name p => exact Meets.pure holds
  | call c name args p ih =>
    refine Meets.bind _ (returns_expandAll fun a member => ih a member (kept.args holds a member))
      fun expanded each => Meets.pure (kept.call holds each)
  | sum c terms p ih =>
    rw [Expr.expandTree, expandSum_eq]
    refine Meets.bind property (Meets.foldlM (kept.number 0) fun total holdsTotal t member => ?_)
      fun inner holdsInner => Meets.bind _ (kept.expandPower holdsInner p) fun power holdsPower =>
        Meets.pure (kept.scale holdsPower c)
    refine Meets.bind _ (ih t member (kept.terms holds t member)) fun expanded holdsExpanded => ?_
    exact Returns.lift fun next added => kept.add holdsTotal holdsExpanded added
  | product c factors ih =>
    rw [expandTree_product]
    refine Meets.foldlM (kept.number c) fun result holdsResult f member => ?_
    have inside : f ∈ factors := by simpa [sortFactors, mem_sortByRank] using member
    refine Meets.bind _ (ih f inside (kept.factors holds f inside)) fun expanded holdsExpanded => ?_
    exact kept.distribute holdsResult holdsExpanded
  | exponential c base exponent ihBase ihExponent =>
    obtain ⟨holdsBase, holdsExponent⟩ := kept.exponential holds
    refine Meets.bind _ (ihBase holdsBase) fun base holdsBase => ?_
    refine Meets.bind _ (ihExponent holdsExponent) fun exponent holdsExponent => ?_
    refine Meets.bind property (Returns.lift fun power returned => ?_)
      fun power holdsPower => Meets.pure (kept.scale holdsPower c)
    exact kept.pow holdsBase holdsExponent returned
  | foreign => exact Meets.throw trivial

theorem expand (holds : property e) : Returns context (expand e) property :=
  Meets.bind _ (Meets.anyway _) fun _ _ => Meets.inScope (kept.expandTree holds)

end KeptByExpansion

variable {context : Context}

theorem wellFormed_keptByExpansion : KeptByExpansion WellFormed where
  number _ := trivial
  args formed := allWellFormed_iff.mp formed.2.2.2.2
  call formed each :=
    ⟨formed.1, formed.2.1, formed.2.2.1, formed.2.2.2.1, allWellFormed_iff.mpr each⟩
  terms formed := allWellFormed_iff.mp formed.2.2.2
  factors formed := allWellFormed_iff.mp formed.2.2
  exponential formed := formed.2.2
  scale formed := formed.scale
  add := add_wellFormed
  mul := mul_wellFormed
  powRat := powRat_wellFormed
  pow := pow_wellFormed

theorem expand_wellFormed {e : Expr} (formed : e.WellFormed) :
    Meets context (fun _ => True) (expand e) WellFormed := wellFormed_keptByExpansion.expand formed

/-- Whatever an operation returns for well-formed trees is well formed. -/
theorem arithmetic_keeps_normal_form {a b : Expr} (formedA : a.WellFormed)
    (formedB : b.WellFormed) :
    (∀ r, add a b = .ok r → r.WellFormed) ∧
      a.neg.WellFormed ∧
      (∀ r, sub a b = .ok r → r.WellFormed) ∧
      (∀ r, mul a b = .ok r → r.WellFormed) ∧
      (∀ r, inv a = .ok r → r.WellFormed) ∧
      (∀ r, div a b = .ok r → r.WellFormed) ∧
      (∀ r, pow a b = .ok r → r.WellFormed) ∧
      (∀ r, sqrt a = .ok r → r.WellFormed) ∧
      (∀ context looks r later, (expand a context).run.run looks = (.ok r, later) →
        r.WellFormed) := by
  refine ⟨fun r => add_wellFormed formedA formedB, formedA.neg,
    fun r => sub_wellFormed formedA formedB, fun r => mul_wellFormed formedA formedB,
    fun r => inv_wellFormed formedA, fun r => div_wellFormed formedA formedB,
    fun r => pow_wellFormed formedA formedB, fun r => powRat_wellFormed formedA, ?_⟩
  intro context looks r later run
  exact (expand_wellFormed formedA).returned run

theorem wellFormed_succ_x : (sum 1 [bare "x", number 1] 1).WellFormed := by decide +kernel

/-- The sum of `x` and one over twice the root of three. -/
theorem normal_form_of_succ_x_over_root :
    (sum 1 [bare "x", number 1] 1).WellFormed ∧ (symbol 2 "3" (mkRat 1 2)).WellFormed ∧
      ∃ r, div (sum 1 [bare "x", number 1] 1) (symbol 2 "3" (mkRat 1 2)) = .ok r ∧
        r.render = .ok "sqrt(3)*(x+1)/6" ∧ r.WellFormed := by
  have root : (symbol 2 "3" (mkRat 1 2)).WellFormed := by decide +kernel
  have written : (div (sum 1 [bare "x", number 1] 1) (symbol 2 "3" (mkRat 1 2)) >>= render).toOption =
      some "sqrt(3)*(x+1)/6" := by decide +kernel
  obtain ⟨r, divided, text⟩ := Outcome.bind_ok (Outcome.ok_of_toOption written)
  exact ⟨wellFormed_succ_x, root, r, divided, text,
    (arithmetic_keeps_normal_form wellFormed_succ_x root).2.2.2.2.2.1 r divided⟩

end ExactAlgebra.Expr
