import ExactAlgebra.Proofs.Merging
import ExactAlgebra.Proofs.SumText
import Mathlib

/-! Expressions as real functions. Those considered here are built from rational numbers, unknowns, sums,
products, whole powers, sines, cosines and powers of `e`. Their texts are unambiguous, so the keys under
which terms and factors are alike tell what they stand for. -/
namespace ExactAlgebra.Expr
open Text

/-- Rational numbers, unknowns, sums, products, whole powers, sine, cosine and powers of `e`. -/
inductive Smooth : Expr → Prop
  | number (c : ℚ) : Smooth (number c)
  | unknown {c : ℚ} {name : String} {p : ℚ} : isVariableName name = true → p.den = 1 →
    Smooth (symbol c name p)
  | powerOfE (c p : ℚ) : Smooth (symbol c "e" p)
  | circular {c : ℚ} {name : String} {u : Expr} {p : ℚ} : name = "sin" ∨ name = "cos" → Smooth u →
    p.den = 1 → Smooth (call c name [u] p)
  | sum {c : ℚ} {terms : List Expr} {p : ℚ} : (∀ t ∈ terms, Smooth t) → p.den = 1 →
    Smooth (sum c terms p)
  | product {c : ℚ} {factors : List Expr} : (∀ f ∈ factors, Smooth f) → Smooth (product c factors)
  | exponential {c : ℚ} {u : Expr} : Smooth u → Smooth (exponential c (bare "e") u)

noncomputable def circular (name : String) : List ℝ → ℝ
  | [x] => if name = "sin" then Real.sin x else if name = "cos" then Real.cos x else 0
  | _ => 0

mutual
/-- The real number that an expression stands for where unknowns stand for given ones. -/
noncomputable def realValue (ρ : String → ℝ) : Expr → ℝ
  | number c => c
  | symbol c name p => c * if name = "e" then Real.exp p else ρ name ^ p.num
  | call c name args p => c * circular name (realValues ρ args) ^ p.num
  | sum c terms p => c * (realValues ρ terms).sum ^ p.num
  | product c factors => c * (realValues ρ factors).prod
  | exponential c base exponent => c * realValue ρ base ^ realValue ρ exponent
  | foreign _ => 0

noncomputable def realValues (ρ : String → ℝ) : List Expr → List ℝ
  | [] => []
  | e :: es => realValue ρ e :: realValues ρ es
end

/-- No base with a negative power has the value zero. -/
inductive NoPole (ρ : String → ℝ) : Expr → Prop
  | number (c : ℚ) : NoPole ρ (number c)
  | symbol {c : ℚ} {name : String} {p : ℚ} : (p < 0 → realValue ρ (bare name) ≠ 0) →
    NoPole ρ (symbol c name p)
  | call {c : ℚ} {name : String} {args : List Expr} {p : ℚ} : (∀ u ∈ args, NoPole ρ u) →
    (p < 0 → realValue ρ (inert name args) ≠ 0) → NoPole ρ (call c name args p)
  | sum {c : ℚ} {terms : List Expr} {p : ℚ} : (∀ t ∈ terms, NoPole ρ t) →
    (p < 0 → realValue ρ (Expr.sum 1 terms 1) ≠ 0) → NoPole ρ (sum c terms p)
  | product {c : ℚ} {factors : List Expr} : (∀ f ∈ factors, NoPole ρ f) → NoPole ρ (product c factors)
  | exponential {c : ℚ} {base exponent : Expr} : NoPole ρ base → NoPole ρ exponent →
    NoPole ρ (exponential c base exponent)

variable {ρ : String → ℝ} {a b e f g : Expr}

theorem realValues_eq (es : List Expr) : realValues ρ es = es.map (realValue ρ) := by
  induction es with
  | nil => rfl
  | cons e es ih => rw [realValues, ih, List.map_cons]

theorem realValue_sum_one (terms : List Expr) :
    realValue ρ (sum 1 terms 1) = (terms.map (realValue ρ)).sum := by
  rw [realValue, realValues_eq, Rat.cast_one, one_mul, Rat.num_one, zpow_one]

theorem addsUp_realValue (ρ : String → ℝ) : AddsUp (realValue ρ) where
  number _ := rfl
  unit e := by cases e <;> simp [withCoeff, unit, realValue, coeff]
  withCoeff e c := by cases e <;> simp [withCoeff, unit, realValue]
  sum c terms := by rw [realValue, realValues_eq, Rat.num_one, zpow_one]

theorem realValue_bare_e : realValue ρ (bare "e") = Real.exp 1 := by
  rw [bare, realValue, if_pos rfl, Rat.cast_one, one_mul]

theorem realValue_exponential (c : ℚ) (u : Expr) :
    realValue ρ (exponential c (bare "e") u) = c * Real.exp (realValue ρ u) := by
  rw [realValue, realValue_bare_e, Real.exp_one_rpow]

theorem isVariableName_ne_e {name : String} (named : isVariableName name = true) : name ≠ "e" := by
  rintro rfl
  cases named

namespace Smooth

theorem withCoeff (smooth : Smooth e) (c : ℚ) : Smooth (e.withCoeff c) := by
  cases smooth with
  | number => exact .number c
  | unknown named whole => exact .unknown named whole
  | powerOfE => exact .powerOfE c _
  | circular named inner whole => exact .circular named inner whole
  | sum each whole => exact .sum each whole
  | product each => exact .product each
  | exponential inner => exact .exponential inner

theorem terms {c p : ℚ} {terms : List Expr} (smooth : Smooth (Expr.sum c terms p)) :
    ∀ t ∈ terms, Smooth t := by
  cases smooth with
  | sum each => exact each

theorem each {c : ℚ} {factors : List Expr} (smooth : Smooth (Expr.product c factors)) :
    ∀ f ∈ factors, Smooth f := by
  cases smooth with
  | product each => exact each

end Smooth

structure SmoothFactor (f : Expr) : Prop where
  formed : f.WellFormed
  proper : IsFactor f
  smooth : Smooth f

/-- What is written after the base for a positive whole power. -/
def powerTail (p : ℚ) : List Char := if p = 1 then [] else '^' :: (exponentText p).toList

theorem poweredText_whole (inner guarded : String) {p : ℚ} (whole : p.den = 1) (positive : 0 < p) :
    (poweredText inner guarded p).toList = guarded.toList ++ powerTail p := by
  unfold powerTail
  rcases poweredText_cases inner guarded positive with ⟨one, shown⟩ | ⟨half, _⟩ | ⟨one, _, shown⟩
  · rw [shown, if_pos one, List.append_nil]
  · rw [half] at whole
    exact absurd whole (by decide +kernel)
  · rw [shown, if_neg one]
    simp

theorem powerTail_inj {p q : ℚ} (positiveP : 0 < p) (positiveQ : 0 < q)
    (same : powerTail p = powerTail q) : p = q := by
  unfold powerTail at same
  split at same <;> split at same
  next one one' => rw [one, one']
  · cases same
  · cases same
  · exact exponentText_inj positiveP positiveQ (String.toList_inj.mp (List.cons.inj same).2)

def isPowerSign (c : Char) : Bool := c == '^'

/-- A base is told apart from its power by the power sign. -/
theorem base_of_powered {s s' : List Char} {p q : ℚ} (positiveP : 0 < p) (positiveQ : 0 < q)
    (closed : Sealed isPowerSign s) (closed' : Sealed isPowerSign s')
    (same : s ++ powerTail p = s' ++ powerTail q) : s = s' ∧ p = q := by
  have ends (p : ℚ) : ∀ c ∈ (powerTail p).head?, nest isPowerSign 0 c = none := by
    unfold powerTail
    split
    · simp
    · intro c leads
      obtain rfl := Option.mem_some_iff.mp leads
      rfl
  obtain ⟨bases, tails⟩ := Sealed.append_inj closed closed' (ends p) (ends q) same
  exact ⟨bases, powerTail_inj positiveP positiveQ tails⟩

/-- How a factor is written that has a whole power. -/
theorem factorSide_whole (formed : e.WellFormed) (plain : e.isExponential = false) (whole : e.power.den = 1) :
    (e.factorSide e.face).1 = decide (0 ≤ e.power) ∧
      (e.factorSide e.face).2.toList = e.face.guarded.toList ++ powerTail |e.power| := by
  have nonzero := power_ne_zero formed
  unfold factorSide
  split
  · cases plain
  split
  next negative =>
    have den : (-e.power).den = 1 := by rw [Rat.neg_den, whole]
    rw [abs_of_neg negative, poweredText_whole _ _ den (neg_pos.mpr negative)]
    exact ⟨(decide_eq_false negative.not_ge).symm, rfl⟩
  next above =>
    have positive : 0 < e.power := lt_of_le_of_ne (not_lt.mp above) nonzero.symm
    rw [abs_of_pos positive, poweredText_whole _ _ whole positive]
    exact ⟨(decide_eq_true positive.le).symm, rfl⟩

theorem eq_of_abs_of_sign {p q : ℚ} (sizes : |p| = |q|) (signs : decide (0 ≤ p) = decide (0 ≤ q)) : p = q := by
  rcases abs_eq_abs.mp sizes with same | opposite
  · exact same
  · have iff : 0 ≤ p ↔ 0 ≤ q := decide_eq_decide.mp signs
    rcases le_total 0 q with above | below
    · have := iff.mpr above
      linarith
    · by_cases zero : q = 0
      · rw [opposite, zero, neg_zero]
      · have negative : q < 0 := lt_of_le_of_ne below zero
        exact absurd (iff.mp (by linarith)) negative.not_ge

/-- Two factors with whole powers that are written alike have the same power of what is written alike. -/
theorem guarded_of_side_eq (formedF : f.WellFormed) (formedG : g.WellFormed)
    (plainF : f.isExponential = false) (plainG : g.isExponential = false) (wholeF : f.power.den = 1)
    (wholeG : g.power.den = 1) (closedF : Sealed isPowerSign f.face.guarded.toList)
    (closedG : Sealed isPowerSign g.face.guarded.toList)
    (same : f.factorSide f.face = g.factorSide g.face) :
    f.face.guarded = g.face.guarded ∧ f.power = g.power := by
  obtain ⟨signF, textF⟩ := factorSide_whole formedF plainF wholeF
  obtain ⟨signG, textG⟩ := factorSide_whole formedG plainG wholeG
  have texts := congrArg (fun side : Bool × String => side.2.toList) same
  simp only [textF, textG] at texts
  obtain ⟨bases, sizes⟩ := base_of_powered (abs_pos.mpr (power_ne_zero formedF))
    (abs_pos.mpr (power_ne_zero formedG)) closedF closedG texts
  exact ⟨String.toList_inj.mp bases,
    eq_of_abs_of_sign sizes (signF.symm.trans ((congrArg Prod.fst same).trans signG))⟩

theorem guarded_call (c : ℚ) (name : String) (u : Expr) (p : ℚ) :
    (call c name [u] p).face.guarded.toList = name.toList ++ '(' :: (u.text.toList ++ [')']) := by
  simp [face, singleFace, faces, Expr.text]

theorem guarded_sum (c : ℚ) (terms : List Expr) (p : ℚ) :
    (sum c terms p).face.guarded.toList = '(' :: (((spreadLayout terms).text 1).toList ++ [')']) := by
  simp [(layout_sum c terms p).1]

theorem closed_guarded_call {c p : ℚ} {name : String} {u : Expr} (formed : (call c name [u] p).WellFormed) :
    Sealed isPowerSign (call c name [u] p).face.guarded.toList := by
  obtain ⟨_, _, named, _, formedU, _⟩ := formed
  rw [guarded_call]
  refine .append (.of_plain fun d member => ?_) (.group (formedU.readable.text _))
  obtain ⟨opening, closing, -⟩ := isSign_continuesName (continuesName_of_mem named member)
  refine ⟨opening, closing, ?_⟩
  by_contra sign
  obtain rfl : d = '^' := by simpa [isPowerSign] using sign
  exact absurd (continuesName_of_mem named member) (by decide)

theorem closed_guarded_sum {c p : ℚ} {terms : List Expr} (formed : (sum c terms p).WellFormed) :
    Sealed isPowerSign (sum c terms p).face.guarded.toList := by
  have inner := formed.readable.inner
  rw [inner_sum] at inner
  rw [guarded_sum]
  exact .group inner

/-- The argument of a call can be read off its base. -/
theorem guarded_call_inj {c d p q : ℚ} {name name' : String} {u v : Expr} (named : Identifier name)
    (named' : Identifier name')
    (same : (call c name [u] p).face.guarded = (call d name' [v] q).face.guarded) :
    name = name' ∧ u.text = v.text := by
  have shown := congrArg String.toList same
  rw [guarded_call, guarded_call] at shown
  have fronts := congrArg takeName? shown
  rw [takeName?_append_cons named (by decide), takeName?_append_cons named' (by decide),
    Option.some.injEq, Prod.mk.injEq] at fronts
  exact ⟨String.toList_inj.mp fronts.1,
    String.toList_inj.mp (List.append_cancel_right (List.cons.inj fronts.2).2)⟩

theorem text_exponential (c : ℚ) (u : Expr) :
    ((exponential c (bare "e") u).factorSide (exponential c (bare "e") u).face) =
      (true, "e^" ++ u.operandText u.face) := by
  have base : (bare "e").operandText (bare "e").face = "e" := by decide +kernel
  have inner : (exponential c (bare "e") u).face.inner = "e" ++ "^" ++ u.operandText u.face := by
    rw [face]
    simp only [base]
  rw [factorSide, inner]
  rfl

/-- Parentheses around an operand of the power sign can be told from its own. -/
theorem operandText_inj (formedA : a.WellFormed) (formedB : b.WellFormed) (properA : a.isNumber = false)
    (properB : b.isNumber = false) (same : a.operandText a.face = b.operandText b.face) :
    a.text = b.text := by
  have operand (e : Expr) : e.operandText e.face = if e.isAtom then e.text else "(" ++ e.text ++ ")" := rfl
  have apart {a b : Expr} (formed : a.WellFormed) (proper : a.isNumber = false) (atom : a.isAtom = true) :
      a.text ≠ "(" ++ b.text ++ ")" := by
    intro same
    obtain ⟨name, named, shown⟩ := text_atom_cases formed proper atom
    obtain ⟨d, word, shape, starts, _⟩ := Reader.identifier_chars named
    obtain ⟨rest, begins⟩ : ∃ rest, a.text.toList = d :: rest := by
      rcases shown with shown | ⟨_, rest, shown⟩
      · exact ⟨word, by rw [shown, shape]⟩
      · exact ⟨word ++ '(' :: rest, by rw [shown, shape]; rfl⟩
    have heads := congrArg (fun s : String => s.toList.head?) same
    simp only [begins] at heads
    obtain rfl : d = '(' := by simpa using heads
    exact absurd starts (by decide)
  rw [operand, operand] at same
  split at same <;> split at same
  · exact same
  next atom _ => exact absurd same (apart formedA properA atom)
  next _ atom => exact absurd same.symm (apart formedB properB atom)
  · apply String.toList_inj.mp
    simpa using congrArg String.toList same

/-- Other factors of the same text have the same value. -/
def SideTells (f : Expr) : Prop :=
  ∀ g, SmoothFactor g → f.factorSide f.face = g.factorSide g.face → ∀ ρ, realValue ρ f = realValue ρ g

/-- Other expressions of the same layout, up to a coefficient in front, have the same value up to it. -/
def LayoutTells (a : Expr) : Prop :=
  ∀ b, b.WellFormed → Smooth b → ∀ c d : ℚ,
    (a.face.layout.map fun item => (item.1 * c, item.2)) = (b.face.layout.map fun item => (item.1 * d, item.2)) →
      ∀ ρ, c * realValue ρ a.unit = d * realValue ρ b.unit

theorem map_eq_map_of_keys {α β κ γ : Type} {as : List α} {bs : List β} {key : α → κ} {key' : β → κ}
    {value : α → γ} {value' : β → γ} (keys : as.map key = bs.map key')
    (tells : ∀ a ∈ as, ∀ b ∈ bs, key a = key' b → value a = value' b) : as.map value = bs.map value' := by
  induction as generalizing bs with
  | nil =>
    cases bs with
    | nil => rfl
    | cons => cases keys
  | cons a as ih =>
    cases bs with
    | nil => cases keys
    | cons b bs =>
      obtain ⟨first, later⟩ := List.cons.inj keys
      rw [List.map_cons, List.map_cons, tells a List.mem_cons_self b List.mem_cons_self first,
        ih later fun a member b member' => tells a (List.mem_cons_of_mem _ member) b
          (List.mem_cons_of_mem _ member')]

def onSide (above : Bool) (factors : List Expr) : List Expr :=
  factors.filter fun f => (f.factorSide f.face).1 == above

theorem prod_onSide (value : Expr → ℝ) (factors : List Expr) :
    (factors.map value).prod =
      ((onSide true factors).map value).prod * ((onSide false factors).map value).prod := by
  induction factors with
  | nil => simp [onSide]
  | cons f rest ih =>
    simp only [onSide] at ih ⊢
    cases above : (f.factorSide f.face).1 with
    | true => simp [above, ih, mul_assoc]
    | false => simp [above, ih, mul_left_comm]

theorem fractionEntry_eq (factors : List Expr) :
    fractionEntry (factors.map fun f => f.factorSide f.face) =
      .fraction ((onSide true factors).map fun f => (f.factorSide f.face).2)
        ((onSide false factors).map fun f => (f.factorSide f.face).2) := by
  simp only [fractionEntry, onSide, List.filter_map, List.map_map, Function.comp_def, beq_true, beq_false]

/-- Factors that are written alike have the same product. -/
theorem prod_eq_of_fractionEntry_eq {fs gs : List Expr}
    (same : fractionEntry (fs.map fun f => f.factorSide f.face) =
      fractionEntry (gs.map fun g => g.factorSide g.face))
    (tells : ∀ f ∈ fs, SideTells f) (factors : ∀ g ∈ gs, SmoothFactor g) (ρ : String → ℝ) :
    (fs.map (realValue ρ)).prod = (gs.map (realValue ρ)).prod := by
  rw [fractionEntry_eq, fractionEntry_eq, Entry.fraction.injEq] at same
  have side (above : Bool) (keys : (onSide above fs).map (fun f => (f.factorSide f.face).2) =
      (onSide above gs).map fun g => (g.factorSide g.face).2) :
      (onSide above fs).map (realValue ρ) = (onSide above gs).map (realValue ρ) := by
    refine map_eq_map_of_keys keys fun f memberF g memberG shown => ?_
    obtain ⟨insideF, sideF⟩ := List.mem_filter.mp memberF
    obtain ⟨insideG, sideG⟩ := List.mem_filter.mp memberG
    refine tells f insideF g (factors g insideG) (Prod.ext ?_ shown) ρ
    rw [beq_iff_eq.mp sideF, beq_iff_eq.mp sideG]
  rw [prod_onSide, prod_onSide _ gs, side true same.1, side false same.2]

theorem SmoothFactor.of_mem (formed : a.WellFormed) (smooth : Smooth a) (member : f ∈ a.factors) :
    SmoothFactor f := by
  obtain ⟨formedF, proper⟩ := isFactor_factors formed member
  refine ⟨formedF, proper, ?_⟩
  cases smooth with
  | number => cases member
  | product each => exact each f ((sortFactors_perm _).mem_iff.mp member)
  | unknown named whole =>
    obtain rfl := List.mem_singleton.mp member
    exact .unknown named whole
  | powerOfE =>
    obtain rfl := List.mem_singleton.mp member
    exact .powerOfE 1 _
  | circular named inner whole =>
    obtain rfl := List.mem_singleton.mp member
    exact .circular named inner whole
  | sum each whole =>
    obtain rfl := List.mem_singleton.mp member
    exact .sum each whole
  | exponential inner =>
    obtain rfl := List.mem_singleton.mp member
    exact .exponential inner

theorem realValue_unit_factors (formed : a.WellFormed) (proper : a.isNumber = false) :
    realValue ρ a.unit = (a.factors.map (realValue ρ)).prod := by
  cases a with
  | number => cases proper
  | foreign => exact formed.elim
  | product c factors =>
    rw [Expr.factors, ((sortFactors_perm factors).map (realValue ρ)).prod_eq, unit, withCoeff, realValue,
      realValues_eq, Rat.cast_one, one_mul]
  | _ => simp [Expr.factors]

theorem isPlainSum_eq_false_of_single (formed : b.WellFormed) (single : b.face.layout.length = 1) :
    b.isPlainSum = false := by
  by_contra plain
  cases b with
  | sum k terms p =>
    obtain rfl : p = 1 := by simpa [isPlainSum] using plain
    have several := two_le_length_spreadLayout formed
    rw [(layout_sum k terms 1).2.2, if_pos rfl] at single
    omega
  | _ => exact plain rfl

/-- A single term is told by its factors. -/
theorem layoutTells_of_factors (formed : a.WellFormed) (flat : a.isPlainSum = false)
    (proper : a.isNumber = false) (tells : ∀ f ∈ a.factors, SideTells f) : LayoutTells a := by
  intro b formedB smoothB c d same ρ
  rw [layout_factors formed flat proper] at same
  have flatB := isPlainSum_eq_false_of_single formedB (by simpa using (congrArg List.length same).symm)
  have properB : b.isNumber = false := by
    by_contra number
    cases b with
    | number => cases congrArg (fun items => items.map Prod.snd) same
    | _ => exact number rfl
  rw [layout_factors formedB flatB properB] at same
  obtain ⟨coefficients, entries⟩ := Prod.mk.inj (List.cons.inj same).1
  rw [one_mul, one_mul] at coefficients
  rw [coefficients, realValue_unit_factors formed proper, realValue_unit_factors formedB properB,
    prod_eq_of_fractionEntry_eq entries tells fun g member => .of_mem formedB smoothB member]

/-- What a term shows apart from its coefficient. -/
def entryOf (t : Expr) : Entry := (t.face.layout.headD (1, .number)).2

theorem layout_eq_entryOf (formed : e.WellFormed) (flat : e.isPlainSum = false) :
    e.face.layout = [(1, e.entryOf)] := by
  obtain ⟨entry, layout, -⟩ := termEntry_layout formed flat
  rw [entryOf, layout]
  rfl

theorem spreadLayout_eq_map {c p : ℚ} {terms : List Expr} (formed : (sum c terms p).WellFormed) :
    spreadLayout terms = (sortTerms terms).map fun t => (t.coeff, t.entryOf) := by
  rw [spreadLayout, ← List.flatMap_singleton' ((sortTerms terms).map _), List.flatMap_map]
  refine List.flatMap_congr fun t sorted => ?_
  have member := (sortTerms_perm terms).mem_iff.mp sorted
  rw [layout_eq_entryOf (allWellFormed_iff.mp formed.2.2.2 t member) (formed.2.2.1.flat t member),
    List.map_cons, mul_one, List.map_nil]

/-- A sum is told by its terms. -/
theorem sum_eq_of_spreadLayout_eq {c d k l p q : ℚ} {terms others : List Expr}
    (formed : (sum k terms p).WellFormed) (formed' : (sum l others q).WellFormed)
    (smooth : ∀ u ∈ others, Smooth u) (tells : ∀ t ∈ terms, LayoutTells t)
    (same : (spreadLayout terms).map (fun item => (item.1 * c, item.2)) =
      (spreadLayout others).map fun item => (item.1 * d, item.2)) (ρ : String → ℝ) :
    c * (terms.map (realValue ρ)).sum = d * (others.map (realValue ρ)).sum := by
  rw [spreadLayout_eq_map formed, spreadLayout_eq_map formed', List.map_map, List.map_map] at same
  rw [← ((sortTerms_perm terms).map (realValue ρ)).sum_eq,
    ← ((sortTerms_perm others).map (realValue ρ)).sum_eq, ← List.sum_map_mul_left, ← List.sum_map_mul_left]
  refine congrArg List.sum (map_eq_map_of_keys same fun t sorted u sorted' items => ?_)
  have member := (sortTerms_perm terms).mem_iff.mp sorted
  have member' := (sortTerms_perm others).mem_iff.mp sorted'
  have formedT := allWellFormed_iff.mp formed.2.2.2 t member
  have formedU := allWellFormed_iff.mp formed'.2.2.2 u member'
  obtain ⟨coefficients, entries⟩ := Prod.mk.inj items
  have layouts : (t.face.layout.map fun item => (item.1 * (t.coeff * c), item.2)) =
      u.face.layout.map fun item => (item.1 * (u.coeff * d), item.2) := by
    rw [layout_eq_entryOf formedT (formed.2.2.1.flat t member),
      layout_eq_entryOf formedU (formed'.2.2.1.flat u member')]
    simpa using ⟨coefficients, entries⟩
  have values := tells t member u formedU (smooth u member') _ _ layouts ρ
  rw [(addsUp_realValue ρ).unit t, (addsUp_realValue ρ).unit u]
  push_cast at values
  linarith

/-- The name at the front of a text and the character behind it. -/
def front (s : String) : Option (List Char × Option Char) :=
  (takeName? s.toList).map fun (name, rest) => (name, rest.head?)

theorem side_symbol {name : String} (named : Identifier name) (c p : ℚ) :
    (symbol c name p).factorSide (symbol c name p).face = (decide (0 ≤ p), poweredText name name |p|) := by
  have side : (symbol c name p).factorSide (symbol c name p).face =
      if p < 0 then (false, poweredText name (symbol c name p).face.guarded (-p))
      else (true, poweredText name (symbol c name p).face.guarded p) := rfl
  rw [side, guarded_identifier named]
  split
  next negative => rw [abs_of_neg negative, decide_eq_false negative.not_ge]
  next above => rw [abs_of_nonneg (not_lt.mp above), decide_eq_true (not_lt.mp above)]

theorem SmoothFactor.identifier {c p : ℚ} {name : String} (factor : SmoothFactor (symbol c name p)) :
    Identifier name := by
  have smooth := factor.smooth
  refine factor.formed.2.2.1.resolve_right fun digits => ?_
  cases smooth with
  | unknown named => simp [isVariableName, digits] at named
  | powerOfE => cases digits

theorem SmoothFactor.isSymbol (factor : SmoothFactor g) {name : String} (named : Identifier name) {p : ℚ}
    (positive : 0 < p) (same : (g.factorSide g.face).2 = poweredText name name p) :
    ∃ c other q, g = symbol c other q := by
  by_contra none
  refine (unnamed_side factor.formed factor.proper fun c other q shape _ => ?_).ne_poweredText named positive same
  exact none ⟨c, other, q, shape⟩

theorem sideTells_symbol {name : String} (named : Identifier name) {p : ℚ} (nonzero : p ≠ 0) :
    SideTells (symbol 1 name p) := by
  intro g factor same ρ
  rw [side_symbol named] at same
  obtain ⟨c, other, q, rfl⟩ := factor.isSymbol named (abs_pos.mpr nonzero) (congrArg Prod.snd same).symm
  have nonzero' : q ≠ 0 := factor.formed.2.1
  rw [side_symbol factor.identifier, Prod.mk.injEq] at same
  obtain ⟨rfl, sizes⟩ := poweredText_name_inj named factor.identifier (abs_pos.mpr nonzero)
    (abs_pos.mpr nonzero') same.2
  obtain rfl : c = 1 := factor.proper.unit
  rw [eq_of_abs_of_sign sizes same.1]

theorem front_call {c p : ℚ} {name : String} {u : Expr} (formed : (call c name [u] p).WellFormed)
    (whole : p.den = 1) :
    front ((call c name [u] p).factorSide (call c name [u] p).face).2 = some (name.toList, some '(') := by
  have text := (factorSide_whole formed rfl whole).2
  rw [guarded_call, List.append_assoc] at text
  rw [front, text]
  exact congrArg _ (takeName?_append_cons formed.2.2.1 (by decide) _)

theorem front_sum {c p : ℚ} {terms : List Expr} (formed : (sum c terms p).WellFormed) (whole : p.den = 1) :
    front ((sum c terms p).factorSide (sum c terms p).face).2 = none := by
  have text := (factorSide_whole formed rfl whole).2
  rw [guarded_sum] at text
  rw [front, text]
  rfl

theorem front_exponential (c : ℚ) (u : Expr) :
    front ((exponential c (bare "e") u).factorSide (exponential c (bare "e") u).face).2 =
      some ("e".toList, some '^') := by
  rw [text_exponential, front, String.toList_append]
  exact congrArg _ (takeName?_append_cons (by decide : Identifier "e") (by decide : continuesName '^' = false) _)

/-- A factor that is no symbol is written as no power of a name. -/
theorem SmoothFactor.not_symbol (factor : SmoothFactor f) (other : f.isSymbol = false) {c p : ℚ} {name : String}
    (factor' : SmoothFactor (symbol c name p)) :
    f.factorSide f.face ≠ (symbol c name p).factorSide (symbol c name p).face := by
  intro same
  have nonzero : p ≠ 0 := factor'.formed.2.1
  rw [side_symbol factor'.identifier] at same
  obtain ⟨_, _, _, rfl⟩ := factor.isSymbol factor'.identifier (abs_pos.mpr nonzero) (congrArg Prod.snd same)
  cases other

/-- Expressions of the same text have the same value. -/
theorem realValue_eq_of_text_eq (formedA : a.WellFormed) (formedB : b.WellFormed) (smoothB : Smooth b)
    (tells : LayoutTells a) (same : a.text = b.text) : realValue ρ a = realValue ρ b := by
  have scaled {e : Expr} (formed : e.WellFormed) :
      ∀ item ∈ e.face.layout.map (fun item => (item.1 * e.coeff, item.2)), TermEntry item.2 := by
    intro item member
    obtain ⟨old, inside, rfl⟩ := List.mem_map.mp member
    exact termEntries formed old inside
  rw [(addsUp_realValue ρ).unit a, (addsUp_realValue ρ).unit b]
  refine tells b formedB smoothB _ _ (joinTerms_inj (scaled formedA) (scaled formedB) ?_) ρ
  rw [List.map_map, List.map_map]
  exact same

theorem sideTells_call {name : String} {u : Expr} {p : ℚ} (factor : SmoothFactor (call 1 name [u] p))
    (tells : LayoutTells u) : SideTells (call 1 name [u] p) := by
  intro g factorG same ρ
  have formed := factor.formed
  have whole : p.den = 1 := by
    cases factor.smooth with
    | circular _ _ whole => exact whole
  have fronts := congrArg (fun side : Bool × String => front side.2) same
  simp only [front_call formed whole] at fronts
  have smoothG := factorG.smooth
  cases smoothG with
  | number => cases factorG.proper.notNumber
  | product => cases factorG.proper.notProduct
  | unknown | powerOfE => exact absurd same (factor.not_symbol rfl factorG)
  | sum _ wholeG => cases fronts.trans (front_sum factorG.formed wholeG)
  | exponential =>
    rw [front_exponential] at fronts
    cases congrArg (Option.map Prod.snd) fronts
  | @circular d name' v q named smoothV wholeG =>
    have formedG := factorG.formed
    obtain ⟨guarded, powers⟩ := guarded_of_side_eq formed formedG rfl rfl whole wholeG
      (closed_guarded_call formed) (closed_guarded_call formedG) same
    obtain ⟨rfl, texts⟩ := guarded_call_inj formed.2.2.1 formedG.2.2.1 guarded
    obtain rfl : d = 1 := factorG.proper.unit
    obtain rfl : p = q := powers
    have values := @realValue_eq_of_text_eq ρ _ _ formed.2.2.2.2.1 formedG.2.2.2.2.1 smoothV tells texts
    simp only [realValue, realValues, values]

theorem sideTells_sum {terms : List Expr} {p : ℚ} (factor : SmoothFactor (sum 1 terms p))
    (tells : ∀ t ∈ terms, LayoutTells t) : SideTells (sum 1 terms p) := by
  intro g factorG same ρ
  have formed := factor.formed
  have whole : p.den = 1 := by
    cases factor.smooth with
    | sum _ whole => exact whole
  have fronts := congrArg (fun side : Bool × String => front side.2) same
  simp only [front_sum formed whole] at fronts
  have smoothG := factorG.smooth
  cases smoothG with
  | number => cases factorG.proper.notNumber
  | product => cases factorG.proper.notProduct
  | unknown | powerOfE => exact absurd same (factor.not_symbol rfl factorG)
  | circular _ _ wholeG => cases fronts.trans (front_call factorG.formed wholeG)
  | exponential =>
    rw [front_exponential] at fronts
    cases fronts
  | @sum d others q smooth wholeG =>
    have formedG := factorG.formed
    obtain ⟨guarded, powers⟩ := guarded_of_side_eq formed formedG rfl rfl whole wholeG
      (closed_guarded_sum formed) (closed_guarded_sum formedG) same
    obtain rfl : d = 1 := factorG.proper.unit
    obtain rfl : p = q := powers
    have shown := congrArg String.toList guarded
    rw [guarded_sum, guarded_sum] at shown
    have inner := String.toList_inj.mp (List.append_cancel_right (List.cons.inj shown).2)
    have layouts := congrArg (List.map fun item : ℚ × Entry => (item.1 * 1, item.2))
      (spreadLayout_inj formed formedG inner)
    have values := sum_eq_of_spreadLayout_eq formed formedG smooth tells layouts ρ
    rw [Rat.cast_one, one_mul, one_mul] at values
    rw [realValue, realValue, realValues_eq, realValues_eq, values]

theorem sideTells_exponential {u : Expr} (factor : SmoothFactor (exponential 1 (bare "e") u))
    (tells : LayoutTells u) : SideTells (exponential 1 (bare "e") u) := by
  intro g factorG same ρ
  have fronts := congrArg (fun side : Bool × String => front side.2) same
  simp only [front_exponential] at fronts
  have smoothG := factorG.smooth
  cases smoothG with
  | number => cases factorG.proper.notNumber
  | product => cases factorG.proper.notProduct
  | unknown | powerOfE => exact absurd same (factor.not_symbol rfl factorG)
  | sum _ wholeG => cases fronts.trans (front_sum factorG.formed wholeG)
  | circular _ _ wholeG =>
    rw [front_call factorG.formed wholeG] at fronts
    cases congrArg (Option.map Prod.snd) fronts
  | @exponential d v smoothV =>
    obtain ⟨_, number, _, formed⟩ := factor.formed
    obtain ⟨_, numberV, _, formedV⟩ := factorG.formed
    obtain rfl : d = 1 := factorG.proper.unit
    rw [text_exponential, text_exponential, Prod.mk.injEq, String.append_right_inj] at same
    have texts := operandText_inj formed formedV number numberV same.2
    rw [realValue_exponential, realValue_exponential,
      realValue_eq_of_text_eq formed formedV smoothV tells texts]

theorem layoutTells_number (c : ℚ) : LayoutTells (number c) := by
  intro b formedB smoothB k l same ρ
  have flat := isPlainSum_eq_false_of_single formedB (by simpa [face] using (congrArg List.length same).symm)
  cases numeric : b.isNumber with
  | false =>
    rw [layout_factors formedB flat numeric] at same
    cases congrArg (fun items => items.map Prod.snd) same
  | true =>
    cases b with
    | number d =>
      obtain ⟨coefficients, -⟩ := Prod.mk.inj (List.cons.inj same).1
      rw [one_mul, one_mul] at coefficients
      rw [coefficients]
      rfl
    | _ => cases numeric

/-- What has several terms is told by them. -/
theorem layoutTells_plainSum {c : ℚ} {terms : List Expr} (formed : (sum c terms 1).WellFormed)
    (tells : ∀ t ∈ terms, LayoutTells t) : LayoutTells (sum c terms 1) := by
  intro b formedB smoothB k l same ρ
  have layout := (layout_sum c terms 1).2.2
  rw [if_pos rfl] at layout
  rw [layout] at same
  have several := two_le_length_spreadLayout formed
  cases flat : b.isPlainSum with
  | false =>
    have single := congrArg List.length same
    rw [layout_eq_entryOf formedB flat, List.length_map, List.map_singleton, List.length_singleton] at single
    omega
  | true =>
    cases b with
    | sum d others q =>
      obtain rfl : q = 1 := by simpa [isPlainSum] using flat
      rw [(layout_sum d others 1).2.2, if_pos rfl] at same
      have values := sum_eq_of_spreadLayout_eq formed formedB smoothB.terms tells same ρ
      simpa only [unit, withCoeff, realValue_sum_one] using values
    | _ => cases flat

/-- Texts tell what smooth expressions stand for. -/
theorem Smooth.tells (smooth : Smooth a) (formed : a.WellFormed) :
    (a.isNumber = false → a.isProduct = false → SideTells a.unit) ∧ LayoutTells a := by
  -- The layout of a node that is one factor is told by that factor.
  have single {a : Expr} (formed : a.WellFormed) (flat : a.isPlainSum = false) (proper : a.isNumber = false)
      (factors : a.factors = [a.unit]) (side : SideTells a.unit) :
      (a.isNumber = false → a.isProduct = false → SideTells a.unit) ∧ LayoutTells a := by
    refine ⟨fun _ _ => side, layoutTells_of_factors formed flat proper fun f member => ?_⟩
    rw [factors] at member
    obtain rfl := List.mem_singleton.mp member
    exact side
  induction smooth with
  | number c => exact ⟨fun number => Bool.noConfusion number, layoutTells_number c⟩
  | unknown named whole =>
    have factor : SmoothFactor (symbol 1 _ _) := ⟨formed.unit, ⟨rfl, rfl, rfl⟩, .unknown named whole⟩
    exact single formed rfl rfl rfl (sideTells_symbol factor.identifier formed.2.1)
  | powerOfE => exact single formed rfl rfl rfl (sideTells_symbol (by decide) formed.2.1)
  | circular named inner whole ih =>
    exact single formed rfl rfl rfl (sideTells_call ⟨formed.unit, ⟨rfl, rfl, rfl⟩, .circular named inner whole⟩
      (ih formed.2.2.2.2.1).2)
  | exponential inner ih =>
    exact single formed rfl rfl rfl
      (sideTells_exponential ⟨formed.unit, ⟨rfl, rfl, rfl⟩, .exponential inner⟩ (ih formed.2.2.2).2)
  | @sum c terms p each whole ih =>
    have tells : ∀ t ∈ terms, LayoutTells t :=
      fun t member => (ih t member (allWellFormed_iff.mp formed.2.2.2 t member)).2
    have side : SideTells (Expr.sum c terms p).unit :=
      sideTells_sum ⟨formed.unit, ⟨rfl, rfl, rfl⟩, .sum each whole⟩ tells
    by_cases one : p = 1
    · subst one
      exact ⟨fun _ _ => side, layoutTells_plainSum formed tells⟩
    · exact single formed (by simpa [isPlainSum] using one) rfl rfl side
  | @product c factors each ih =>
    refine ⟨fun _ product => Bool.noConfusion product, layoutTells_of_factors formed rfl rfl fun f member => ?_⟩
    have inside := (sortFactors_perm factors).mem_iff.mp member
    have proper := formed.2.1.proper f inside
    have side := (ih f inside (allWellFormed_iff.mp formed.2.2 f inside)).1 proper.notNumber proper.notProduct
    rwa [unit_of_coeff proper.unit] at side

/-- Terms with the same key differ in their coefficients alone. -/
theorem realValue_unit_eq_of_termKey_eq (formedA : a.WellFormed) (formedB : b.WellFormed) (smoothA : Smooth a)
    (smoothB : Smooth b) (flatA : a.isPlainSum = false) (flatB : b.isPlainSum = false)
    (same : a.termKey = b.termKey) : realValue ρ a.unit = realValue ρ b.unit := by
  have apart {a b : Expr} (formed : b.WellFormed) (flat : b.isPlainSum = false) (same : a.termKey = b.termKey)
      (number : a.isNumber = true) : b.isNumber = true := by
    by_contra other
    have proper : b.isNumber = false := by simpa using other
    exact termKey_ne_number formed flat proper (same ▸ if_pos number)
  cases numberA : a.isNumber with
  | true =>
    have numberB := apart formedB flatB same numberA
    cases a with
    | number =>
      cases b with
      | number => rfl
      | _ => cases numberB
    | _ => cases numberA
  | false =>
    have numberB : b.isNumber = false := by
      by_contra number
      rw [apart formedA flatA same.symm (by simpa using number)] at numberA
      cases numberA
    have layouts := (alike_of_termKey_eq formedA formedB flatA flatB numberA numberB same).2
    have values := (smoothA.tells formedA).2 b formedB smoothB 1 1 (by rw [layouts]) ρ
    rwa [Rat.cast_one, one_mul, one_mul] at values

end ExactAlgebra.Expr
