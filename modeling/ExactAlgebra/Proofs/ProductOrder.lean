import ExactAlgebra.Proofs.Denotation
import ExactAlgebra.Proofs.Restoration
import ExactAlgebra.Proofs.SumText
import Mathlib

/-! Products do not depend on order and grouping. All that matters of the factors of a rational function is
what power each key has; multiplication adds these powers, and the text can be read off them and the
coefficient. -/
namespace ExactAlgebra.Expr
open Reader

noncomputable def basePowers (fs : List Expr) : String →₀ ℚ :=
  (fs.map fun f => Finsupp.single f.baseKey f.power).sum

variable {scheme : Scheme} {a b r s : Expr} {fs gs : List Expr} {k l : ℚ} {v w : String →₀ ℚ}

theorem basePowers_cons (f : Expr) (fs : List Expr) :
    basePowers (f :: fs) = Finsupp.single f.baseKey f.power + basePowers fs := by
  rw [basePowers, List.map_cons, List.sum_cons, basePowers]

theorem basePowers_append (fs gs : List Expr) : basePowers (fs ++ gs) = basePowers fs + basePowers gs := by
  rw [basePowers, List.map_append, List.sum_append, basePowers, basePowers]

theorem basePowers_perm (perm : fs.Perm gs) : basePowers fs = basePowers gs := (perm.map _).sum_eq

/-- Sums that are laid out alike are written alike under every power. -/
theorem face_sum_of_spreadLayout {terms others : List Expr} (layouts : spreadLayout terms = spreadLayout others)
    (keyed : ∀ t ∈ terms, t.hasTermKey = true) (keyed' : ∀ t ∈ others, t.hasTermKey = true) (q : ℚ) :
    (sum 1 terms q).face = (sum 1 others q).face := by
  have legible {ts : List Expr} (keyed : ∀ t ∈ ts, t.hasTermKey = true) :
      (ts.zipWith (fun t f => (t.termRank f, (t.coeff, f.layout))) (faces ts)).all (fun item => item.1.hasKey) =
        true := by
    rw [faces_eq, List.zipWith_map_right, List.zipWith_self, List.all_map, List.all_eq_true]
    exact keyed
  simp only [face, spreadLayout_eq, layouts, legible keyed, legible keyed']
  rfl

/-- Factors with the same key and the same power are written alike. -/
theorem PlainFactor.similar {f g : Expr} (plainF : PlainFactor scheme f) (plainG : PlainFactor scheme g)
    (key : f.baseKey = g.baseKey) (power : f.power = g.power) : Similar f g := by
  have bases : f.depict.base.chars = g.depict.base.chars := by
    rw [plainF.based.key, plainG.based.key, plainF.based.guarded, plainG.based.guarded] at key
    exact chars_eq_of_text_eq key
  have apart {name : String} {terms : List Expr} {p q : ℚ} (named : (symbol 1 name p).WellFormed)
      (unknown : isVariableName name = true)
      (same : (symbol 1 name p).depict.base.chars = (sum 1 terms q).depict.base.chars) : False := by
    have spelled := named.2.2.1.resolve_right (by
      rw [(isVariableName_eq unknown).1]
      exact Bool.false_ne_true)
    obtain ⟨first, rest, shape, starts, -⟩ := identifier_chars spelled
    rw [depict, depict_sum, Phrase.chars, Phrase.chars, shape] at same
    obtain rfl := (List.cons.inj same).1
    exact absurd starts (by decide)
  have formedF := plainF.formed
  have formedG := plainG.formed
  obtain ⟨name, p, rfl, named, -⟩ | ⟨terms, p, rfl, -⟩ := plainF.cases <;>
    obtain ⟨other, q, rfl, named', -⟩ | ⟨others, q, rfl, -⟩ := plainG.cases <;>
      obtain rfl : p = q := power
  · obtain rfl : name = other := String.toList_inj.mp bases
    exact .refl _
  · exact (apart formedF named bases).elim
  · exact (apart formedG named' bases.symm).elim
  · have texts : (spreadLayout terms).text 1 = (spreadLayout others).text 1 := by
      have inner := (layout_sum 1 terms p).2.1.symm.trans (key.trans (layout_sum 1 others p).2.1)
      rw [(layout_sum 1 terms p).1, (layout_sum 1 others p).1] at inner
      simpa using inner
    exact .sum 1 p (face_sum_of_spreadLayout (spreadLayout_inj formedF formedG texts) formedF.2.2.1.keyed
      formedG.2.2.1.keyed)

/-- Separate factors are determined by the powers of their keys. -/
theorem Separate.similars (separateF : Separate scheme fs) (separateG : Separate scheme gs)
    (same : basePowers fs = basePowers gs) : Similars fs gs := by
  have pairs (fs : List Expr) : basePowers fs =
      ((fs.map fun f => (f.baseKey, f.power)).map fun item => Finsupp.single item.1 item.2).sum := by
    rw [List.map_map]
    rfl
  have distinct {fs : List Expr} (separate : Separate scheme fs) :
      ((fs.map fun f => (f.baseKey, f.power)).map Prod.fst).Nodup := by
    rw [List.map_map]
    exact separate.distinct
  have nonzero {fs : List Expr} (separate : Separate scheme fs) :
      ∀ item ∈ fs.map fun f => (f.baseKey, f.power), item.2 ≠ 0 := by
    intro item member
    obtain ⟨f, inside, rfl⟩ := List.mem_map.mp member
    exact (separate.plain f inside).power_ne_zero
  rw [pairs, pairs] at same
  refine .of_images (fun f => (f.baseKey, f.power))
    (perm_of_sum_single_eq (distinct separateF) (distinct separateG) (nonzero separateF) (nonzero separateG) same) ?_
  intro f memberF g memberG alike
  obtain ⟨keys, powers⟩ := Prod.mk.inj alike
  exact (separateF.plain f memberF).similar (separateG.plain g memberG) keys powers

/-- Merging adds up the powers of each key, and no key is met that cannot be written out. -/
theorem basePowers_of_mergeWithin {n : ℕ} {pending : List Expr} {factors merged : List (String × Expr)} {c d : ℚ}
    (enough : 2 * pending.length + factors.length + 4 ≤ n) (plain : ∀ f ∈ pending, PlainFactor scheme f)
    (plainBefore : ∀ f ∈ factors, PlainFactor scheme f.2) (before : Merged factors)
    (returned : mergeWithin n pending factors c = .ok (merged, d)) :
    basePowers (merged.map (·.2)) = basePowers pending + basePowers (factors.map (·.2)) ∧
      ∀ f ∈ pending, f.hasBaseKey = true := by
  induction n generalizing pending factors with
  | zero => omega
  | succ n ih =>
    cases pending with
    | nil =>
      cases returned
      exact ⟨(zero_add _).symm, by simp⟩
    | cons f pending =>
      obtain ⟨plainF, plainRest⟩ := List.forall_mem_cons.mp plain
      simp only [List.length_cons] at enough
      cases keyed : f.hasBaseKey with
      | false =>
        rw [mergeWithin_keyless keyed] at returned
        cases returned
      | true =>
        rw [basePowers_cons, List.forall_mem_cons]
        cases found : removeFactor f.baseKey factors with
        | none =>
          have plainNext : ∀ g ∈ factors ++ [(f.baseKey, f)], PlainFactor scheme g.2 := by
            intro g inside
            rcases List.mem_append.mp inside with old | new
            · exact plainBefore g old
            · obtain rfl := List.mem_singleton.mp new
              exact plainF
          rw [mergeWithin_fresh keyed found] at returned
          obtain ⟨sum, rest⟩ := ih (by simp; omega) plainRest plainNext
            (before.append (removeFactor_none found) keyed plainF.standing) returned
          refine ⟨?_, keyed, rest⟩
          rw [sum, List.map_append, List.map_singleton, basePowers_append, basePowers_cons f []]
          simp only [basePowers, List.map_nil, List.sum_nil, add_zero]
          abel
        | some item =>
          obtain ⟨g, others⟩ := item
          obtain ⟨perm, sub⟩ := removeFactor_some found
          have stored : (f.baseKey, g) ∈ factors := perm.mem_iff.mpr List.mem_cons_self
          have same : f.baseKey = g.baseKey := (before.keyed _ stored).1
          have plainG := plainBefore _ stored
          obtain ⟨n, rfl⟩ : ∃ m, n = m + 3 := ⟨n - 3, by omega⟩
          rw [mergeWithin_alike plainF plainG keyed found] at returned
          have shape := (mergedFactors_mergedPower plainF plainG).2
          have powers : basePowers (mergedFactors (mergedPower g f)) =
              Finsupp.single f.baseKey f.power + Finsupp.single f.baseKey g.power := by
            rw [shape, ← Finsupp.single_add, add_comm]
            split
            next total => rw [total, Finsupp.single_zero, basePowers, List.map_nil, List.sum_nil]
            next => simp [basePowers, same, power_withPower plainG]
          have plainNext : ∀ h ∈ pending ++ mergedFactors (mergedPower g f), PlainFactor scheme h := by
            intro h inside
            rcases List.mem_append.mp inside with old | new
            · exact plainRest h old
            · rw [shape] at new
              split at new
              · cases new
              next total =>
                obtain rfl := List.mem_singleton.mp new
                exact plainG.withPower (scheme.add _ _ plainG.powers plainF.powers total) total
          have few : (mergedFactors (mergedPower g f)).length ≤ 1 := by
            rw [shape]
            split <;> simp
          have count := perm.length_eq
          rw [List.length_cons] at count
          obtain ⟨sum, rest⟩ := ih (by rw [List.length_append]; omega) plainNext
            (fun h inside => plainBefore h (sub.subset inside)) (before.sublist sub) returned
          refine ⟨?_, keyed, fun h later => rest h (List.mem_append_left _ later)⟩
          rw [sum, basePowers_append, powers, basePowers_perm (perm.map (·.2)), List.map_cons, basePowers_cons, ← same]
          abel

/-- The factors of a product of two expressions have the powers of both. -/
theorem mul_separate (formedA : a.WellFormed) (builtA : BuiltBy scheme a) (formedB : b.WellFormed)
    (builtB : BuiltBy scheme b) (numberA : a.isNumber = false) (numberB : b.isNumber = false)
    (returned : mul a b = .ok r) :
    (∀ f ∈ a.factors ++ b.factors, f.hasBaseKey = true) ∧
      ∃ fs, r = ofFactors fs (a.coeff * b.coeff) ∧ Separate scheme fs ∧
        basePowers fs = basePowers a.factors + basePowers b.factors := by
  have some {e : Expr} (number : e.isNumber = false) : e.isZero = false := by
    cases e with
    | number => cases number
    | _ => rfl
  have work : 2 * (a.factors.length + b.factors.length) + 5 ≤ workLimit a b := enough_work
  obtain ⟨n, limit⟩ : ∃ n, workLimit a b = n + 1 := ⟨workLimit a b - 1, by omega⟩
  rw [mul, limit] at returned
  unfold mulWithin at returned
  rw [if_neg (by simp [some numberA, some numberB])] at returned
  split at returned
  · cases numberA
  · cases numberB
  · obtain ⟨⟨merged, c⟩, merges, returned⟩ := Outcome.bind_ok returned
    have plain : ∀ f ∈ a.factors ++ b.factors, PlainFactor scheme f :=
      List.forall_mem_append.mpr ⟨plainFactor_factors formedA builtA, plainFactor_factors formedB builtB⟩
    have enough : 2 * (a.factors ++ b.factors).length + ([] : List (String × Expr)).length + 4 ≤ n := by
      rw [List.length_append, List.length_nil]
      omega
    have none : Merged [] := ⟨by simp, by simp, by simp⟩
    obtain ⟨powers, keyed⟩ := basePowers_of_mergeWithin enough plain (by simp) none merges
    have kept := (keepsForm n).merge (fun f member => (plain f member).standing) none merges
    rcases (Kind.lawful_ofScheme scheme).merges (a.coeff * b.coeff) enough
      (fun f member => plainFactor_iff.mp (plain f member)) none (by simp) with ⟨failed, -⟩ | ⟨others, again, merges'⟩
    · cases failed.symm.trans merges
    · obtain ⟨rfl, rfl⟩ := Prod.mk.inj (Except.ok.inj (again.symm.trans merges))
      refine ⟨keyed, others.map (·.2), (Except.ok.inj returned).symm, ⟨?_, ?_, ?_⟩, ?_⟩
      · exact List.forall_mem_map.mpr fun f member => plainFactor_iff.mpr (merges'.factor f member)
      · exact List.forall_mem_map.mpr fun f member => (kept.keyed f member).2
      · have keys : (others.map (·.2)).map baseKey = others.map (·.1) := by
          rw [List.map_map]
          exact List.map_congr_left fun f member => (kept.keyed f member).1.symm
        exact keys ▸ kept.distinct
      · rw [powers, basePowers_append]
        exact add_zero _

/-- A rational function of this coefficient whose factors have these powers, all keys of which can be written
out. -/
structure Factored (scheme : Scheme) (k : ℚ) (w : String →₀ ℚ) (e : Expr) : Prop where
  formed : e.WellFormed
  built : BuiltBy scheme e
  keyed : ∀ f ∈ e.factors, f.hasBaseKey = true
  coeff : e.coeff = k
  powers : k ≠ 0 → basePowers e.factors = w

namespace Factored

theorem eq_zero (factored : Factored scheme k w a) (none : k = 0) : a = zero := by
  cases number : a.isNumber with
  | true =>
    cases a with
    | number c =>
      obtain rfl : c = 0 := factored.coeff.trans none
      rfl
    | _ => cases number
  | false => exact absurd (factored.coeff.trans none) (factored.formed.coeff_ne_zero number)

theorem zero (w : String →₀ ℚ) : Factored scheme 0 w zero :=
  ⟨trivial, .number 0, by simp [Expr.zero, factors], rfl, fun some => absurd rfl some⟩

theorem isZero (factored : Factored scheme k w a) (some : k ≠ 0) : a.isZero = false := by
  rw [Bool.eq_false_iff]
  intro none
  rw [eq_zero_of_isZero none] at factored
  exact some factored.coeff.symm

theorem separate (factored : Factored scheme k w a) : Separate scheme a.factors :=
  ⟨plainFactor_factors factored.formed factored.built, factored.keyed, factored.formed.distinct_factors⟩

theorem scale (factored : Factored scheme k w a) (some : l ≠ 0) : Factored scheme (k * l) w (a.scale l) := by
  have shape : a.scale l = a.withCoeff (k * l) := by rw [Expr.scale, if_neg some, factored.coeff]
  refine ⟨factored.formed.scale l, factored.built.scale l, ?_, ?_, fun both => ?_⟩
  · rw [shape, factors_withCoeff]
    exact factored.keyed
  · rw [shape]
    exact factored.formed.coeff_withCoeff _
  · rw [shape, factors_withCoeff, factored.powers (left_ne_zero_of_mul both)]

/-- Coefficients are multiplied and powers are added. -/
theorem mul (factoredA : Factored scheme k v a) (factoredB : Factored scheme l w b) :
    ∃ r, Expr.mul a b = .ok r ∧ Factored scheme (k * l) (v + w) r := by
  by_cases noneA : k = 0
  · refine ⟨Expr.zero, mul_of_isZero ?_, ?_⟩
    · rw [factoredA.eq_zero noneA]
      rfl
    · rw [noneA, zero_mul]
      exact zero _
  by_cases noneB : l = 0
  · refine ⟨Expr.zero, mul_of_isZero ?_, ?_⟩
    · rw [factoredB.eq_zero noneB, Bool.or_comm]
      rfl
    · rw [noneB, mul_zero]
      exact zero _
  obtain ⟨n, limit⟩ := enough_for_one a b
  cases numberA : a.isNumber with
  | true =>
    cases a with
    | number c =>
      obtain rfl : c = k := factoredA.coeff
      have none : v = 0 := (factoredA.powers noneA).symm
      refine ⟨b.scale c, ?_, ?_⟩
      · rw [Expr.mul, limit, mulWithin_number (n + 1) noneA (factoredB.isZero noneB)]
      · rw [none, zero_add, mul_comm]
        exact factoredB.scale noneA
    | _ => cases numberA
  | false =>
    cases numberB : b.isNumber with
    | true =>
      cases b with
      | number d =>
        obtain rfl : d = l := factoredB.coeff
        have none : w = 0 := (factoredB.powers noneB).symm
        refine ⟨a.scale d, ?_, ?_⟩
        · rw [Expr.mul, limit, mulWithin_number_right (n + 1) numberA noneB]
        · rw [none, add_zero]
          exact factoredA.scale noneB
      | _ => cases numberB
    | false =>
      have keyed : ∀ f ∈ a.factors ++ b.factors, f.hasBaseKey = true :=
        List.forall_mem_append.mpr ⟨factoredA.keyed, factoredB.keyed⟩
      rcases mul_built factoredA.formed factoredB.formed factoredA.built factoredB.built with
        ⟨-, f, member, keyless⟩ | ⟨r, returned, -⟩
      · rw [keyed f member] at keyless
        cases keyless
      · obtain ⟨-, fs, rfl, separate, powers⟩ := mul_separate factoredA.formed factoredA.built factoredB.formed
          factoredB.built numberA numberB returned
        rw [factoredA.coeff, factoredB.coeff] at returned
        obtain ⟨perm, coeff, -⟩ := factors_ofFactors (mul_ne_zero noneA noneB) separate.assorted.proper
        refine ⟨_, returned, separate.wellFormed _, separate.built _, fun f member => ?_, coeff, fun _ => ?_⟩
        · exact separate.keyed f (perm.mem_iff.mp member)
        · rw [basePowers_perm perm, powers, factoredA.powers noneA, factoredB.powers noneB]

/-- The text can be read off the coefficient and the powers. -/
theorem render_eq (factoredA : Factored scheme k w a) (factoredB : Factored scheme k w b) :
    a.render = b.render := by
  by_cases none : k = 0
  · rw [factoredA.eq_zero none, factoredB.eq_zero none]
  have similars := factoredA.separate.similars factoredB.separate
    ((factoredA.powers none).trans (factoredB.powers none).symm)
  have first := similar_ofFactors factoredA.formed factoredA.built similars none
  have second := similar_ofFactors factoredB.formed factoredB.built (.of_perm (.refl _)) none
  rw [← factoredA.coeff, withCoeff_coeff, factoredA.coeff] at first
  rw [← factoredB.coeff, withCoeff_coeff, factoredB.coeff] at second
  exact first.render.trans second.render.symm

end Factored

def Bracketing.product : Bracketing → Except Fault Expr
  | leaf e => .ok e
  | node left right => do mul (← left.product) (← right.product)

def HasBaseKeys (e : Expr) : Prop := ∀ f ∈ e.factors, f.hasBaseKey = true

theorem IsRationalFunction.factored (rational : IsRationalFunction a) (keyed : HasBaseKeys a) :
    Factored .rational a.coeff (basePowers a.factors) a :=
  ⟨rational.formed, rational.built, keyed, rfl, fun _ => rfl⟩

/-- A product has the product of the coefficients and the powers of all that was multiplied. -/
theorem Bracketing.factored_product {t : Bracketing} (rational : ∀ e ∈ t.leaves, IsRationalFunction e)
    (keyed : ∀ e ∈ t.leaves, HasBaseKeys e) :
    ∃ r, t.product = .ok r ∧ Factored .rational (t.leaves.map Expr.coeff).prod
      (t.leaves.map fun e => basePowers e.factors).sum r := by
  induction t with
  | leaf e =>
    have here := (rational e List.mem_cons_self).factored (keyed e List.mem_cons_self)
    exact ⟨e, rfl, by simpa [leaves] using here⟩
  | node left right ihLeft ihRight =>
    obtain ⟨rationalLeft, rationalRight⟩ := List.forall_mem_append.mp rational
    obtain ⟨keyedLeft, keyedRight⟩ := List.forall_mem_append.mp keyed
    obtain ⟨a, first, factoredA⟩ := ihLeft rationalLeft keyedLeft
    obtain ⟨b, second, factoredB⟩ := ihRight rationalRight keyedRight
    obtain ⟨r, returned, factored⟩ := factoredA.mul factoredB
    refine ⟨r, ?_, ?_⟩
    · rw [product, first, second]
      exact returned
    · simpa [leaves] using factored

/-- Rational functions multiply to the same text in any order and with any brackets, where their keys can be
written out. -/
theorem product_independent_of_order {s t : Bracketing} (perm : s.leaves.Perm t.leaves)
    (rational : ∀ e ∈ s.leaves, IsRationalFunction e) (keyed : ∀ e ∈ s.leaves, HasBaseKeys e) :
    ∃ a b, s.product = .ok a ∧ t.product = .ok b ∧ a.render = b.render := by
  obtain ⟨a, returnedA, factoredA⟩ := Bracketing.factored_product rational keyed
  obtain ⟨b, returnedB, factoredB⟩ := Bracketing.factored_product (t := t)
    (fun e member => rational e (perm.mem_iff.mpr member)) fun e member => keyed e (perm.mem_iff.mpr member)
  rw [← (perm.map Expr.coeff).prod_eq, ← (perm.map fun e => basePowers e.factors).sum_eq] at factoredB
  exact ⟨a, b, returnedA, returnedB, factoredA.render_eq factoredB⟩

theorem mul_number_comm (number : b.isNumber = false) (c : ℚ) : mul (.number c) b = mul b (.number c) := by
  by_cases none : c = 0
  · rw [mul_of_isZero (by simp [isZero, none]), mul_of_isZero (by simp [isZero, none])]
  · have some : b.isZero = false := by
      cases b with
      | number => cases number
      | _ => rfl
    obtain ⟨n, limit⟩ := enough_for_one (.number c) b
    obtain ⟨m, turned⟩ := enough_for_one b (.number c)
    rw [mul, limit, mulWithin_number (n + 1) none some, mul, turned, mulWithin_number_right (m + 1) number none]

/-- Two rational functions multiply to the same text, whichever comes first. -/
theorem render_mul_comm (rationalA : IsRationalFunction a) (rationalB : IsRationalFunction b)
    (returned : mul a b = .ok r) (turned : mul b a = .ok s) : r.render = s.render := by
  have numeric (c : ℚ) : HasBaseKeys (.number c) := by simp [HasBaseKeys, factors]
  by_cases keyed : HasBaseKeys a ∧ HasBaseKeys b
  · obtain ⟨p, product, factored⟩ := (rationalA.factored keyed.1).mul (rationalB.factored keyed.2)
    obtain ⟨q, other, factored'⟩ := (rationalB.factored keyed.2).mul (rationalA.factored keyed.1)
    obtain rfl : p = r := Except.ok.inj (product.symm.trans returned)
    obtain rfl : q = s := Except.ok.inj (other.symm.trans turned)
    rw [mul_comm b.coeff, add_comm (basePowers b.factors)] at factored'
    exact factored.render_eq factored'
  -- Only numbers are multiplied with what has no key.
  have same : mul a b = mul b a := by
    cases numberA : a.isNumber with
    | true =>
      cases a with
      | number c =>
        cases numberB : b.isNumber with
        | true =>
          cases b with
          | number d => exact absurd ⟨numeric c, numeric d⟩ keyed
          | _ => cases numberB
        | false => exact mul_number_comm numberB c
      | _ => cases numberA
    | false =>
      cases numberB : b.isNumber with
      | true =>
        cases b with
        | number d => exact (mul_number_comm numberA d).symm
        | _ => cases numberB
      | false =>
        have both := (mul_separate rationalA.formed rationalA.built rationalB.formed rationalB.built numberA numberB
          returned).1
        exact absurd (List.forall_mem_append.mp both) keyed
  obtain rfl : r = s := Except.ok.inj (returned.symm.trans (same.trans turned))
  rfl

end ExactAlgebra.Expr
