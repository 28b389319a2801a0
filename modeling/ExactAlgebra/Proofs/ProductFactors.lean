import ExactAlgebra.Proofs.Collection
import ExactAlgebra.Proofs.PolynomialTerms
import Mathlib

/-! The factors of products, powers and quotients, one by one. In a product of two expressions a factor
comes from one of them or from like factors of both, whose powers add up. So a polynomial over some of its
factors is what the other factors leave. -/
namespace ExactAlgebra.Expr

variable {scheme : Scheme} {a b r : Expr}

/-- The factors of the product of two expressions: those that are alike to none of the other expression,
and the powers into which like ones are merged. -/
inductive ComesFrom (left right : List Expr) (h : Expr) : Prop
  | left (member : h ∈ left) (alone : ∀ f ∈ right, f.baseKey ≠ h.baseKey)
  | right (member : h ∈ right) (alone : ∀ g ∈ left, g.baseKey ≠ h.baseKey)
  | both {g f : Expr} (memberG : g ∈ left) (memberF : f ∈ right) (same : f.baseKey = g.baseKey)
    (nonzero : g.power + f.power ≠ 0) (shape : h = g.withPower (g.power + f.power))

/-- Merging pending factors of which no two are alike meets each key at most twice. -/
theorem comesFrom_of_mergeWithin {n : ℕ} {pending : List Expr} {factors merged : List (String × Expr)} {c d : ℚ}
    (enough : 2 * pending.length + factors.length + 4 ≤ n) (plain : ∀ f ∈ pending, PlainFactor scheme f)
    (plainBefore : ∀ f ∈ factors, PlainFactor scheme f.2) (before : Merged factors)
    (keyed : ∀ f ∈ pending, f.hasBaseKey = true) (distinct : (pending.map baseKey).Nodup)
    (returned : mergeWithin n pending factors c = .ok (merged, d)) :
    ∀ h ∈ merged, ComesFrom (factors.map (·.2)) pending h.2 := by
  induction n generalizing pending factors with
  | zero => omega
  | succ n ih =>
    intro h member
    cases pending with
    | nil =>
      cases returned
      exact .left (List.mem_map_of_mem member) (by simp)
    | cons f pending =>
      obtain ⟨plainF, plainRest⟩ := List.forall_mem_cons.mp plain
      obtain ⟨keyedF, keyedRest⟩ := List.forall_mem_cons.mp keyed
      obtain ⟨other, distinctRest⟩ := List.nodup_cons.mp distinct
      have apart : ∀ g ∈ pending, g.baseKey ≠ f.baseKey := fun g inside same =>
        other (List.mem_map.mpr ⟨g, inside, same⟩)
      simp only [List.length_cons] at enough
      cases found : removeFactor f.baseKey factors with
      | none =>
        rw [mergeWithin_fresh keyedF found] at returned
        have fresh := removeFactor_none found
        have unlike : ∀ g ∈ factors.map (·.2), g.baseKey ≠ f.baseKey := by
          intro g inside same
          obtain ⟨entry, stored, rfl⟩ := List.mem_map.mp inside
          exact fresh (List.mem_map.mpr ⟨entry, stored, (before.keyed entry stored).1.trans same⟩)
        have plainNext : ∀ g ∈ factors ++ [(f.baseKey, f)], PlainFactor scheme g.2 := by
          intro g inside
          rcases List.mem_append.mp inside with old | new
          · exact plainBefore g old
          · obtain rfl := List.mem_singleton.mp new
            exact plainF
        have comes := ih (by simp; omega) plainRest plainNext
          (before.append fresh keyedF ⟨plainF.formed, plainF.proper⟩) keyedRest distinctRest returned h member
        rw [List.map_append, List.map_singleton] at comes
        cases comes with
        | left inside alone =>
          rcases List.mem_append.mp inside with old | new
          · exact .left old (List.forall_mem_cons.mpr ⟨(unlike _ old).symm, alone⟩)
          · rw [List.mem_singleton.mp new]
            exact .right List.mem_cons_self unlike
        | right inside alone =>
          exact .right (List.mem_cons_of_mem _ inside) fun g old => alone g (List.mem_append_left _ old)
        | both insideG insideF same nonzero shape =>
          rcases List.mem_append.mp insideG with old | new
          · exact .both old (List.mem_cons_of_mem _ insideF) same nonzero shape
          · rw [List.mem_singleton.mp new] at same
            exact absurd same (apart _ insideF)
      | some item =>
        obtain ⟨g, others⟩ := item
        obtain ⟨perm, sub⟩ := removeFactor_some found
        have stored : (f.baseKey, g) ∈ factors := perm.mem_iff.mpr List.mem_cons_self
        have same : f.baseKey = g.baseKey := (before.keyed _ stored).1
        have plainG := plainBefore _ stored
        obtain ⟨n, rfl⟩ : ∃ m, n = m + 3 := ⟨n - 3, by omega⟩
        rw [mergeWithin_alike plainF plainG keyedF found] at returned
        have unlike : ∀ e ∈ others.map (·.2), e.baseKey ≠ f.baseKey := by
          intro e inside key
          obtain ⟨entry, kept, rfl⟩ := List.mem_map.mp inside
          have keys := (perm.map (·.1)).nodup_iff.mp before.distinct
          refine (List.nodup_cons.mp keys).1 (List.mem_map.mpr ⟨entry, kept, ?_⟩)
          exact (before.keyed entry (sub.subset kept)).1.trans key
        have subset : ∀ e ∈ others.map (·.2), e ∈ factors.map (·.2) := fun e inside =>
          (sub.map _).subset inside
        have only : ∀ e ∈ mergedFactors (mergedPower g f),
            g.power + f.power ≠ 0 ∧ e = g.withPower (g.power + f.power) := by
          intro e inside
          rw [(mergedFactors_mergedPower plainF plainG).2] at inside
          split at inside
          · cases inside
          next total => exact ⟨total, List.mem_singleton.mp inside⟩
        have next : ∀ e ∈ pending ++ mergedFactors (mergedPower g f),
            e ∈ pending ∨ (g.power + f.power ≠ 0 ∧ e = g.withPower (g.power + f.power)) := fun e inside =>
          (List.mem_append.mp inside).imp_right (only e)
        have few : (mergedFactors (mergedPower g f)).length ≤ 1 := by
          rw [(mergedFactors_mergedPower plainF plainG).2]
          split <;> simp
        have distinctNext : ((pending ++ mergedFactors (mergedPower g f)).map baseKey).Nodup := by
          rw [(mergedFactors_mergedPower plainF plainG).2]
          split
          · simpa using distinctRest
          · rw [List.map_append, List.nodup_append]
            refine ⟨distinctRest, List.nodup_singleton _, ?_⟩
            rintro _ inside _ last rfl
            rw [List.map_singleton, List.mem_singleton, baseKey_withPower, ← same] at last
            exact other (last ▸ inside)
        have plainNext : ∀ e ∈ pending ++ mergedFactors (mergedPower g f), PlainFactor scheme e := by
          intro e inside
          rcases next e inside with old | ⟨total, rfl⟩
          · exact plainRest e old
          · exact plainG.withPower (scheme.add _ _ plainG.powers plainF.powers total) total
        have keyedNext : ∀ e ∈ pending ++ mergedFactors (mergedPower g f), e.hasBaseKey = true := by
          intro e inside
          rcases next e inside with old | ⟨-, rfl⟩
          · exact keyedRest e old
          · rw [hasBaseKey_withPower]
            exact (before.keyed _ stored).2
        have count := perm.length_eq
        rw [List.length_cons] at count
        have comes := ih (by rw [List.length_append]; omega) plainNext
          (fun e inside => plainBefore e (sub.subset inside)) (before.sublist sub) keyedNext distinctNext
          returned h member
        have inTable : g ∈ factors.map (·.2) := List.mem_map_of_mem stored
        cases comes with
        | left inside alone =>
          refine .left (subset _ inside) (List.forall_mem_cons.mpr ⟨(unlike _ inside).symm, fun e later => ?_⟩)
          exact alone e (List.mem_append_left _ later)
        | right inside alone =>
          rcases next _ inside with old | ⟨total, shape⟩
          · refine .right (List.mem_cons_of_mem _ old) fun e table key => ?_
            obtain ⟨entry, kept, rfl⟩ := List.mem_map.mp table
            rcases List.mem_cons.mp (perm.mem_iff.mp kept) with rfl | left
            · exact apart _ old (key.symm.trans same.symm)
            · exact alone _ (List.mem_map_of_mem left) key
          · exact .both inTable List.mem_cons_self same total shape
        | both insideG insideF alike nonzero shape =>
          rcases next _ insideF with old | ⟨-, rfl⟩
          · exact .both (subset _ insideG) (List.mem_cons_of_mem _ old) alike nonzero shape
          · rw [baseKey_withPower, ← same] at alike
            exact absurd alike.symm (unlike _ insideG)

theorem comesFrom_of_mul (formedA : a.WellFormed) (builtA : BuiltBy scheme a) (formedB : b.WellFormed)
    (builtB : BuiltBy scheme b) (keyed : ∀ f ∈ a.factors ++ b.factors, f.hasBaseKey = true)
    (returned : mul a b = .ok r) : ∀ h ∈ r.factors, ComesFrom a.factors b.factors h := by
  have enough : 2 * (a.factors.length + b.factors.length) + 5 ≤ workLimit a b := enough_work
  obtain ⟨n, limit⟩ : ∃ n, workLimit a b = n + a.factors.length + 1 :=
    ⟨workLimit a b - a.factors.length - 1, by omega⟩
  rw [mul, limit] at returned
  unfold mulWithin at returned
  intro h member
  split at returned
  · cases returned
    cases member
  split at returned
  next c b =>
    cases returned
    exact .right (mem_factors_scale member) (by simp [factors])
  next a c _ =>
    cases returned
    exact .left (mem_factors_scale member) (by simp [factors])
  · obtain ⟨⟨merged, c⟩, merges, returned⟩ := Outcome.bind_ok returned
    cases returned
    have plainA := plainFactor_factors formedA builtA
    have plainB := plainFactor_factors formedB builtB
    have table : ∀ f ∈ a.factors.map fun f => (f.baseKey, f), ∃ g ∈ a.factors, f = (g.baseKey, g) := by
      intro f inside
      obtain ⟨g, old, rfl⟩ := List.mem_map.mp inside
      exact ⟨g, old, rfl⟩
    have keyedA : ∀ f ∈ a.factors, f.hasBaseKey = true := fun f inside => keyed f (List.mem_append_left _ inside)
    have before : Merged (a.factors.map fun f => (f.baseKey, f)) := by
      refine ⟨fun f inside => ?_, by simpa [Function.comp_def] using formedA.distinct_factors, fun f inside => ?_⟩
      · obtain ⟨g, old, rfl⟩ := table f inside
        exact ⟨rfl, keyedA g old⟩
      · obtain ⟨g, old, rfl⟩ := table f inside
        exact ⟨(plainA g old).formed, (plainA g old).proper⟩
    have plainTable : ∀ f ∈ a.factors.map fun f => (f.baseKey, f), PlainFactor scheme f.2 := by
      intro f inside
      obtain ⟨g, old, rfl⟩ := table f inside
      exact plainA g old
    rw [mergeWithin_append _ keyedA (by simpa using formedA.distinct_factors), List.nil_append] at merges
    have proper : ∀ f ∈ merged.map (·.2), IsFactor f := by
      intro f inside
      obtain ⟨entry, stored, rfl⟩ := List.mem_map.mp inside
      have kept := (keepsForm n).merge (fun f inside => ⟨(plainB f inside).formed, (plainB f inside).proper⟩)
        before merges
      exact (kept.proper entry stored).2
    obtain ⟨entry, stored, rfl⟩ := List.mem_map.mp (mem_of_mem_factors_ofFactors proper member)
    have comes := comesFrom_of_mergeWithin (by rw [List.length_map]; omega) plainB plainTable before
      (fun f inside => keyed f (List.mem_append_right _ inside)) formedB.distinct_factors merges entry stored
    simpa [Function.comp_def] using comes

/-- The product of powers of different bases. -/
theorem mulAll_powers {factors : List Expr} (plain : ∀ f ∈ factors, PlainFactor .polynomial f)
    (keyed : ∀ f ∈ factors, f.hasBaseKey = true) (distinct : (factors.map baseKey).Nodup) :
    ∃ r, mulAll one factors = .ok r ∧ IsPolynomial r ∧ r.coeff = 1 ∧ r.factors.Perm factors := by
  have assorted : Assorted ([] ++ factors) := ⟨fun f member => (plain f member).standing, keyed, distinct⟩
  obtain ⟨after, multiplied, perm⟩ := assorted.mulAll_ofFactors one_ne_zero
  obtain ⟨factors, coeff, -⟩ := factors_ofFactors one_ne_zero (assorted.perm perm.symm).proper
  refine ⟨ofFactors after 1, multiplied, ?_, coeff, factors.trans perm⟩
  exact (denote_mulAll (show IsPolynomial one from ⟨trivial, .number 1⟩)
    (fun f member => ⟨(plain f member).formed, (plain f member).built⟩) multiplied).1

/-- The product of the entries of a table of powers of different bases. -/
theorem mulAll_table {table : List (String × Expr)} (keyed : ∀ entry ∈ table, entry.1 = entry.2.baseKey)
    (distinct : (table.map (·.1)).Nodup) (plain : ∀ entry ∈ table, PlainFactor .polynomial entry.2)
    (legible : ∀ entry ∈ table, entry.2.hasBaseKey = true) :
    ∃ r, mulAll one (table.map (·.2)) = .ok r ∧ IsPolynomial r ∧ r.coeff = 1 ∧
      r.factors.Perm (table.map (·.2)) := by
  rw [List.map_congr_left keyed, ← Function.comp_def baseKey, ← List.map_map] at distinct
  exact mulAll_powers (List.forall_mem_map.mpr plain) (List.forall_mem_map.mpr legible) distinct

/-- The factors of a power are the powers of the factors. -/
theorem factors_of_powRat {p : ℚ} (formed : a.WellFormed) (built : BuiltBy scheme a) (whole : p.den = 1)
    (zero : p ≠ 0) (one : p ≠ 1) (closed : ∀ q, scheme.powers q → scheme.powers (q * p))
    (returned : a.powRat p = .ok r) : r.factors.Perm (a.factors.map fun f => f.withPower (f.power * p)) := by
  have enough : a.factors.length + 5 ≤ workLimit a a := enough_work_pow
  obtain ⟨n, limit⟩ : ∃ n, workLimit a a = n + 2 := ⟨workLimit a a - 2, by omega⟩
  rw [powRat, limit] at returned
  cases number : a.isNumber with
  | true =>
    cases a with
    | number c =>
      rw [powRatWithin, if_neg zero, if_neg one] at returned
      rcases eq_or_ne c 0 with rfl | nonzero
      · rw [if_pos rfl] at returned
        split at returned
        · cases returned
        · cases returned
          exact .refl _
      · rw [if_neg nonzero, powNumber_whole whole nonzero] at returned
        split at returned
        · cases returned
        · cases returned
          exact .refl _
    | _ => cases number
  | false =>
    cases product : a.isProduct with
    | true =>
      cases a with
      | product c factors =>
        have sorted : (Expr.product c factors).factors.Perm factors := sortFactors_perm factors
        rw [sorted.length_eq] at enough
        obtain ⟨large, small⟩ := @powRatWithin_product scheme p whole zero one closed (n + 1) c factors formed
          built (by omega)
        by_cases size : tooLarge c p
        · rw [large size] at returned
          cases returned
        · obtain ⟨after, raised, perm⟩ := small size
          cases raised.symm.trans returned
          exact (sortFactors_perm after).trans (perm.trans (sorted.map _).symm)
      | _ => cases product
    | false =>
      rw [powRatWithin_base n formed built number product whole zero one] at returned
      obtain ⟨-, returned⟩ := Outcome.passed returned
      cases returned
      rw [factors_withCoeff]
      cases built with
      | number => cases number
      | product => cases product
      | symbol | sum => exact .refl _

/-- The factors of a reciprocal. -/
theorem factors_of_inv (formed : a.WellFormed) (built : BuiltBy .rational a) (returned : inv a = .ok r) :
    r.factors.Perm (a.factors.map fun f => f.withPower (f.power * -1)) := by
  unfold inv at returned
  split at returned
  · obtain ⟨c, -, returned⟩ := Outcome.bind_ok returned
    cases returned
    exact .refl _
  · exact factors_of_powRat formed built rfl (by norm_num) (by norm_num) (rational_closed rfl) returned

/-- What a polynomial leaves when it is divided by some of its factors. -/
structure Leaves (a b r : Expr) : Prop where
  poly : IsPolynomial r
  value : denote r * denote b = denote a
  factor : ∀ h ∈ r.factors, ∃ g ∈ a.factors, h = g.withPower h.power ∧ h.power ≤ g.power ∧
    ∀ f ∈ b.factors, f.baseKey = g.baseKey → h.power + f.power = g.power

/-- Like powers stand for zero together. -/
theorem denote_eq_zero_of_alike {f g : Expr} (plainF : PlainFactor .polynomial f)
    (plainG : PlainFactor .polynomial g) (same : f.baseKey = g.baseKey) (zero : denote f = 0) : denote g = 0 := by
  refine MvPolynomial.funext fun ρ => ?_
  have value : eval ρ f.stem ^ f.power.num = 0 := by
    rw [← plainF.eval_eq, ← eval_denote plainF.built, zero, map_zero]
  rw [eval_denote plainG.built, plainG.eval_eq, ← eval_stem_eq_of_baseKey_eq plainF.based plainG.based same,
    eq_zero_of_zpow_eq_zero value, map_zero, zero_zpow _ (Rat.num_pos.mpr plainG.powers.2).ne']

/-- Where the divisor stands for zero, so does what has its factors. -/
theorem denote_eq_zero_of_matched (polyA : IsPolynomial a) (polyB : IsPolynomial b) (unit : b.coeff = 1)
    (matched : ∀ f ∈ b.factors, ∃ g ∈ a.factors, g.baseKey = f.baseKey) (zero : denote b = 0) :
    denote a = 0 := by
  rw [denote_factors polyB.built, unit, MvPolynomial.C_1, one_mul, List.prod_eq_zero_iff] at zero
  obtain ⟨f, memberF, zeroF⟩ := List.mem_map.mp zero
  obtain ⟨g, memberG, same⟩ := matched f memberF
  have zeroG := denote_eq_zero_of_alike (plainFactor_factors polyB.formed polyB.built f memberF)
    (plainFactor_factors polyA.formed polyA.built g memberG) same.symm zeroF
  rw [denote_factors polyA.built, List.prod_eq_zero (List.mem_map.mpr ⟨g, memberG, zeroG⟩), mul_zero]

theorem eq_of_baseKey_eq (formed : a.WellFormed) {f g : Expr} (memberF : f ∈ a.factors)
    (memberG : g ∈ a.factors) (same : f.baseKey = g.baseKey) : f = g :=
  List.inj_on_of_nodup_map formed.distinct_factors memberF memberG same

/-- A factor of a quotient is one of the dividend at the power that is left of it. -/
theorem factor_of_div {i : Expr} (polyA : IsPolynomial a) (polyB : IsPolynomial b)
    (matched : ∀ f ∈ b.factors, ∃ g ∈ a.factors, g.baseKey = f.baseKey ∧ f.power ≤ g.power)
    (inverse : i.factors.Perm (b.factors.map fun f => f.withPower (f.power * -1))) {h : Expr}
    (comes : ComesFrom a.factors i.factors h) :
    BuiltBy .polynomial h ∧ ∃ g ∈ a.factors, h = g.withPower h.power ∧ h.power ≤ g.power ∧
      ∀ f ∈ b.factors, f.baseKey = g.baseKey → h.power + f.power = g.power := by
  have plainA := plainFactor_factors polyA.formed polyA.built
  have plainB := plainFactor_factors polyB.formed polyB.built
  cases comes with
  | left member alone =>
    refine ⟨(plainA h member).built, h, member, (withPower_power h).symm, le_rfl, fun f divisor same => ?_⟩
    refine absurd ?_ (alone _ (inverse.mem_iff.mpr (List.mem_map_of_mem divisor)))
    rw [baseKey_withPower, same]
  | right member alone =>
    obtain ⟨f, divisor, rfl⟩ := List.mem_map.mp (inverse.mem_iff.mp member)
    obtain ⟨g, inside, same, -⟩ := matched f divisor
    exact absurd (by rw [same, baseKey_withPower]) (alone g inside)
  | both memberG memberF same nonzero shape =>
    rename_i g _
    obtain ⟨f, divisor, rfl⟩ := List.mem_map.mp (inverse.mem_iff.mp memberF)
    rw [baseKey_withPower] at same
    have plainG := plainA g memberG
    have plainF := plainB f divisor
    obtain ⟨g', inside, alike, least⟩ := matched f divisor
    obtain rfl := eq_of_baseKey_eq polyA.formed inside memberG (alike.trans same)
    rw [power_withPower plainF, mul_neg_one] at nonzero shape
    have power : h.power = g'.power + -f.power := by rw [shape, power_withPower plainG]
    have powers : Scheme.polynomial.powers (g'.power + -f.power) := by
      refine ⟨Rational.add_den plainG.powers.1 plainF.powers.1, ?_⟩
      exact lt_of_le_of_ne (by linarith) nonzero.symm
    have lower : h.power ≤ g'.power := by
      rw [power]
      linarith [plainF.powers.2]
    refine ⟨shape ▸ (plainG.withPower powers nonzero).built, g', memberG, by rw [power, shape], lower,
      fun e other key => ?_⟩
    obtain rfl := eq_of_baseKey_eq polyB.formed other divisor (key.trans same.symm)
    rw [power, neg_add_cancel_right]

/-- A polynomial is divided by some of its factors without a rest. -/
theorem div_matched (polyA : IsPolynomial a) (polyB : IsPolynomial b) (unit : b.coeff = 1)
    (keyed : ∀ f ∈ a.factors ++ b.factors, f.hasBaseKey = true)
    (matched : ∀ f ∈ b.factors, ∃ g ∈ a.factors, g.baseKey = f.baseKey ∧ f.power ≤ g.power) :
    ∃ r, div a b = .ok r ∧ Leaves a b r := by
  have some : b.isZero = false := by
    cases b with
    | number c => simpa [isZero] using fun zero : c = 0 => by simp [Expr.coeff, zero] at unit
    | _ => rfl
  have small : ¬ tooLarge b.coeff (-1) := by
    rw [unit]
    exact fun large => absurd large.1 (by decide)
  rcases div_built polyA.formed polyA.built.rational polyB.formed polyB.built.rational some (rational_closed rfl)
    with ⟨large, -⟩ | ⟨-, f, member, keyless⟩ | ⟨r, returned, divides⟩
  · exact absurd large small
  · rw [keyed f member] at keyless
    cases keyless
  refine ⟨r, returned, ?_⟩
  have formed := div_wellFormed polyA.formed polyB.formed returned
  obtain ⟨-, multiplied⟩ := Outcome.passed returned
  obtain ⟨i, inverted, multiplied⟩ := Outcome.bind_ok multiplied
  have inverse := factors_of_inv polyB.formed polyB.built.rational inverted
  have formedI := inv_wellFormed polyB.formed inverted
  have builtI : BuiltBy .rational i := by
    rcases inv_built polyB.formed polyB.built.rational some (rational_closed rfl) with
      ⟨large, -⟩ | ⟨s, same, raises⟩
    · exact absurd large small
    · cases same.symm.trans inverted
      exact raises.built
  have keyedI : ∀ f ∈ a.factors ++ i.factors, f.hasBaseKey = true := by
    intro f member
    rcases List.mem_append.mp member with left | right
    · exact keyed f (List.mem_append_left _ left)
    · obtain ⟨g, divisor, rfl⟩ := List.mem_map.mp (inverse.mem_iff.mp right)
      rw [hasBaseKey_withPower]
      exact keyed g (List.mem_append_right _ divisor)
  have factors (h : Expr) (member : h ∈ r.factors) := factor_of_div polyA polyB matched inverse
    (comesFrom_of_mul polyA.formed polyA.built.rational formedI builtI keyedI multiplied h member)
  have poly : IsPolynomial r :=
    ⟨formed, (BuiltBy.keptByProducts .polynomial).of_factors fun h member => (factors h member).1⟩
  refine ⟨poly, ?_, fun h member => (factors h member).2⟩
  -- Away from the zeros of the divisor the values agree.
  have identity : (denote r * denote b - denote a) * denote b = 0 := by
    refine MvPolynomial.funext fun ρ => ?_
    rw [map_mul, map_sub, map_mul, eval_denote poly.built, eval_denote polyA.built, eval_denote polyB.built,
      map_zero, mul_eq_zero]
    by_cases zero : eval ρ b = 0
    · exact .inr zero
    · left
      rw [divides.value ρ polyA.built.defined polyB.built.defined zero, div_mul_cancel₀ _ zero, sub_self]
  rcases mul_eq_zero.mp identity with same | zero
  · exact sub_eq_zero.mp same
  · rw [zero, mul_zero, denote_eq_zero_of_matched polyA polyB unit (fun f divisor =>
      (matched f divisor).imp fun g holds => ⟨holds.1, holds.2.1⟩) zero]

end ExactAlgebra.Expr
