import ExactAlgebra.Proofs.AdditionValue
import ExactAlgebra.Proofs.NormalForm
import ExactAlgebra.Proofs.RationalFunctions
import ExactAlgebra.Proofs.Similarity
import ExactAlgebra.Proofs.TermKey
import Mathlib

/-! Sums do not depend on order and grouping. All that matters of a sum is what coefficient each key
has; addition adds these coefficients, and the text can be read off them. -/
namespace ExactAlgebra.Expr

/-- A well-formed expression of which no term is zero, unless it is zero as a whole. -/
structure IsReduced (e : Expr) : Prop where
  formed : e.WellFormed
  nonzero : e.isZero = false → ∀ t ∈ e.summands, t.coeff ≠ 0

/-- The coefficient of each key. -/
noncomputable def weights (e : Expr) : String →₀ ℚ :=
  (e.summands.map fun t => Finsupp.single t.termKey t.coeff).sum

/-- The keys of all terms can be written out. -/
def IsKeyed (e : Expr) : Prop := ∀ t ∈ e.summands, t.hasTermKey = true

variable {a b e r : Expr}

noncomputable def weight (t : RankedTerm) : String →₀ ℚ := Finsupp.single t.1.key t.2.coeff

theorem weights_eq (e : Expr) : weights e = ((e.summands.map rankTerm).map weight).sum := by
  rw [weights, List.map_map]
  refine congrArg List.sum (List.map_congr_left fun t _ => ?_)
  rw [Function.comp_apply, weight, rankTerm, termRank_key]

theorem IsTerm.coeff_withCoeff {t : Expr} (term : IsTerm t) (c : Rat) : (t.withCoeff c).coeff = c := by
  simpa only [unit, withCoeff_withCoeff] using term.formed.coeff_withCoeff c

theorem weight_merge {t new : RankedTerm} (term : IsTerm t.2) (alike : t.1.key = new.1.key) :
    weight (t.1, t.2.withCoeff (t.2.coeff + new.2.coeff)) = weight t + weight new := by
  rw [weight, weight, weight, term.coeff_withCoeff, alike, Finsupp.single_add]

theorem weights_of_isZero (none : e.isZero = true) : weights e = 0 := by
  rw [eq_zero_of_isZero none]
  exact (add_zero _).trans (Finsupp.single_zero _)

theorem weights_ofTerms {terms : List RankedTerm} (collected : Collected terms) :
    weights (ofTerms terms) = (terms.map weight).sum := by
  have cancelled : ((remaining terms).map weight).sum = (terms.map weight).sum := by
    clear collected
    induction terms with
    | nil => rfl
    | cons t rest ih =>
      by_cases zero : t.2.coeff = 0
      · have gone : remaining (t :: rest) = remaining rest := by simp [remaining, zero]
        rw [gone, ih, List.map_cons, List.sum_cons, weight, zero, Finsupp.single_zero, zero_add]
      · have stays : remaining (t :: rest) = t :: remaining rest := by simp [remaining, zero]
        rw [stays, List.map_cons, List.sum_cons, ih, List.map_cons, List.sum_cons]
  rw [← cancelled]
  cases zero : (ofTerms terms).isZero with
  | true =>
    rw [weights_of_isZero zero]
    rcases ofTerms_cases collected with ⟨left, _⟩ | ⟨t, left, same⟩ | ⟨c, _, same, _⟩
    · rw [left]
      rfl
    · have kept := (mem_remaining.mp (left ▸ List.mem_singleton_self t)).2
      rw [same] at zero
      rw [eq_zero_of_isZero zero] at kept
      exact absurd rfl kept
    · rw [same] at zero
      cases zero
  | false =>
    have ranked : ((remaining terms).map (·.2)).map rankTerm = remaining terms := by
      rw [List.map_map]
      refine (List.map_congr_left fun t member => ?_).trans (List.map_id _)
      have rank := collected.ranked t (mem_remaining.mp member).1
      rw [Function.comp_apply, rankTerm, ← rank]
      rfl
    rw [weights_eq, summands_ofTerms collected zero, ranked]

theorem weights_add (formedA : a.WellFormed) (formedB : b.WellFormed) (returned : add a b = .ok r) :
    weights r = weights a + weights b := by
  rcases add_cases returned with ⟨zero, rfl⟩ | ⟨zero, rfl⟩ | ⟨x, y, rfl, rfl, rfl⟩ | ⟨keyed, rfl⟩
  · rw [weights_of_isZero zero, zero_add]
  · rw [weights_of_isZero zero, add_zero]
  · simp [weights, summands, termKey, isNumber, coeff, Finsupp.single_add]
  · have each : ∀ t ∈ (a.summands ++ b.summands).map rankTerm,
        t.1 = t.2.termRank t.2.face ∧ IsTerm t.2 ∧ True := by
      intro t member
      obtain ⟨u, inside, rfl⟩ := List.mem_map.mp member
      rcases List.mem_append.mp inside with left | right
      · exact ⟨rfl, formedA.isTerm_summands left (keyed u inside), trivial⟩
      · exact ⟨rfl, formedB.isTerm_summands right (keyed u inside), trivial⟩
    have collected := @sum_foldl_insertTerm _ _ weight (fun _ => True) (fun _ _ => trivial)
      (fun _ _ _ _ term _ _ _ alike => weight_merge term alike) _ _ .nil (by simp) each
    rw [mergeTerms, weights_ofTerms (collected_summands formedA formedB keyed), collected,
      weights_eq, weights_eq, List.map_append, List.map_append, List.sum_append]
    exact zero_add _

theorem IsReduced.add (reducedA : IsReduced a) (reducedB : IsReduced b) (returned : add a b = .ok r) :
    IsReduced r := by
  refine ⟨add_wellFormed reducedA.formed reducedB.formed returned, ?_⟩
  rcases add_cases returned with ⟨_, rfl⟩ | ⟨_, rfl⟩ | ⟨x, y, rfl, rfl, rfl⟩ | ⟨keyed, rfl⟩
  · exact reducedB.nonzero
  · exact reducedA.nonzero
  · intro proper t member
    obtain rfl := List.mem_singleton.mp member
    simpa [isZero, coeff] using proper
  · intro proper t member
    rw [mergeTerms, summands_ofTerms (collected_summands reducedA.formed reducedB.formed keyed) proper]
      at member
    obtain ⟨u, inside, rfl⟩ := List.mem_map.mp member
    exact (mem_remaining.mp inside).2

/-- Where keys could be written out, they can be in the sum. -/
theorem IsKeyed.add (formedA : a.WellFormed) (formedB : b.WellFormed) (keyedA : IsKeyed a)
    (keyedB : IsKeyed b) (returned : add a b = .ok r) : IsKeyed r := by
  rcases add_cases returned with ⟨_, rfl⟩ | ⟨_, rfl⟩ | ⟨x, y, rfl, rfl, rfl⟩ | ⟨keyed, rfl⟩
  · exact keyedB
  · exact keyedA
  · intro t member
    obtain rfl := List.mem_singleton.mp member
    rfl
  · have collected := collected_summands formedA formedB keyed
    intro t member
    cases zero : (mergeTerms ((a.summands ++ b.summands).map rankTerm)).isZero with
    | true =>
      rw [eq_zero_of_isZero zero] at member
      obtain rfl := List.mem_singleton.mp member
      rfl
    | false =>
      rw [mergeTerms, summands_ofTerms collected zero] at member
      obtain ⟨u, inside, rfl⟩ := List.mem_map.mp member
      exact (collected.proper u (mem_remaining.mp inside).1).keyed

theorem weights_pairs (e : Expr) : weights e =
    ((e.summands.map fun t => (t.termKey, t.coeff)).map fun item => Finsupp.single item.1 item.2).sum := by
  rw [List.map_map]
  rfl

theorem WellFormed.distinct_pairs (formed : e.WellFormed) :
    ((e.summands.map fun t => (t.termKey, t.coeff)).map Prod.fst).Nodup := by
  rw [List.map_map]
  exact formed.distinct_summands

theorem IsReduced.isZero_of_weights (reduced : IsReduced e) (none : weights e = 0) : e.isZero = true := by
  by_contra proper
  obtain ⟨t, member⟩ := List.exists_mem_of_ne_nil _ reduced.formed.summands_ne_nil
  have here := sum_single_of_mem reduced.formed.distinct_pairs (List.mem_map_of_mem member)
  rw [← weights_pairs, none] at here
  exact reduced.nonzero (Bool.eq_false_of_not_eq_true proper) t member here.symm

/-- Reduced expressions with the same weights have terms that look alike. -/
theorem appearances_perm (reducedA : IsReduced a) (reducedB : IsReduced b) (keyedA : IsKeyed a)
    (keyedB : IsKeyed b) (same : weights a = weights b) :
    (a.summands.map appearance).Perm (b.summands.map appearance) := by
  cases zeroA : a.isZero with
  | true =>
    have zeroB := reducedB.isZero_of_weights (same ▸ weights_of_isZero zeroA)
    rw [eq_zero_of_isZero zeroA, eq_zero_of_isZero zeroB]
  | false =>
    have zeroB : b.isZero = false := by
      rw [Bool.eq_false_iff]
      intro zeroB
      rw [reducedA.isZero_of_weights (same.trans (weights_of_isZero zeroB))] at zeroA
      cases zeroA
    have nonzero {e : Expr} (reduced : IsReduced e) (proper : e.isZero = false) :
        ∀ item ∈ e.summands.map fun t => (t.termKey, t.coeff), item.2 ≠ 0 := by
      intro item member
      obtain ⟨t, inside, rfl⟩ := List.mem_map.mp member
      exact reduced.nonzero proper t inside
    rw [weights_pairs, weights_pairs] at same
    have pairs := perm_of_sum_single_eq reducedA.formed.distinct_pairs reducedB.formed.distinct_pairs
      (nonzero reducedA zeroA) (nonzero reducedB zeroB) same
    refine perm_map_of_perm_map (fun t => (t.termKey, t.coeff)) appearance pairs
      fun t memberT u memberU alike => ?_
    obtain ⟨keys, coeffs⟩ := Prod.mk.inj alike
    obtain ⟨ranks, layouts⟩ := (reducedA.formed.isTerm_summands memberT (keyedA t memberT)).alike
      (reducedB.formed.isTerm_summands memberU (keyedB u memberU)) keys
    rw [appearance, appearance, ranks, coeffs, layouts]

theorem isLegible_of_hasTermKey (keyed : e.hasTermKey = true) : e.face.isLegible = true := by
  unfold hasTermKey termRank at keyed
  split at keyed
  next number =>
    cases e with
    | number => rfl
    | _ => cases number
  next => exact (Bool.and_eq_true_iff.mp keyed).1

theorem layout_withCoeff (e : Expr) (c : Rat) : (e.withCoeff c).face.layout = e.face.layout := by
  cases e <;> rfl

/-- The terms of a plain sum look as they do when its coefficient is spread over them, but for that
coefficient. -/
theorem appearances_plain {c : Rat} {terms : List Expr} (formed : (sum c terms 1).WellFormed) :
    ((sum c terms 1).summands.map appearance).map (fun look => (look.1, look.2.1 / c, look.2.2)) =
      terms.map appearance := by
  rw [summands_plain, List.map_map, List.map_map]
  refine List.map_congr_left fun t member => ?_
  have formedT := allWellFormed_iff.mp formed.2.2.2 t member
  simp only [Function.comp_apply, appearance, termRank_withCoeff, formedT.coeff_withCoeff,
    layout_withCoeff, mul_div_cancel_right₀ _ formed.1]

theorem coeff_eq_of_perm {c d : Rat} {ts us : List Expr} (reducedA : IsReduced (sum c ts 1))
    (reducedB : IsReduced (sum d us 1))
    (looks : ((sum c ts 1).summands.map appearance).Perm ((sum d us 1).summands.map appearance)) :
    c = d := by
  have terms {c : Rat} {ts : List Expr} (reduced : IsReduced (sum c ts 1)) : ∀ t ∈ ts, t.coeff ≠ 0 :=
    terms_ne_zero reduced.formed (reduced.nonzero rfl)
  have collected := collected_plain reducedA.formed
  have shareA {best rest} := @share_plain c ts reducedA.formed (terms reducedA) best rest
  have shareB {best rest} := @share_plain d us reducedB.formed (terms reducedB) best rest
  obtain ⟨t, ts', shapeA⟩ := List.exists_cons_of_ne_nil reducedA.formed.summands_ne_nil
  obtain ⟨u, us', shapeB⟩ := List.exists_cons_of_ne_nil reducedB.formed.summands_ne_nil
  rw [shapeA] at collected looks shareA
  rw [shapeB] at looks shareB
  rw [← shareA (List.map_cons ..), ← shareB (List.map_cons ..)]
  exact share_of_perm looks collected

theorem WellFormed.several_summands {c : Rat} {terms : List Expr} (formed : (sum c terms 1).WellFormed) :
    2 ≤ (sum c terms 1).summands.length := by
  rw [summands_plain, List.length_map]
  exact formed.2.2.1.several

/-- What has the weights of a sum is written as that sum. -/
theorem similar_of_weights {c : Rat} {terms : List Expr} (reducedA : IsReduced (sum c terms 1))
    (reducedB : IsReduced b) (keyedA : IsKeyed (sum c terms 1)) (keyedB : IsKeyed b)
    (same : weights (sum c terms 1) = weights b) : Similar (sum c terms 1) b := by
  have looks := appearances_perm reducedA reducedB keyedA keyedB same
  rcases summands_cases b with single | ⟨d, others, rfl⟩
  · have several := reducedA.formed.several_summands
    have count := looks.length_eq
    rw [List.length_map, List.length_map, single, List.length_singleton] at count
    omega
  · obtain rfl := coeff_eq_of_perm reducedA reducedB looks
    have shares := looks.map fun look => (look.1, look.2.1 / c, look.2.2)
    rw [appearances_plain reducedA.formed, appearances_plain reducedB.formed] at shares
    exact .sum c 1 fun q => face_sum_of_perm shares reducedA.formed.2.2.1.distinct 1 q

theorem render_eq_of_weights (reducedA : IsReduced a) (reducedB : IsReduced b) (keyedA : IsKeyed a)
    (keyedB : IsKeyed b) (same : weights a = weights b) : a.render = b.render := by
  rcases summands_cases a with singleA | ⟨c, terms, rfl⟩
  · rcases summands_cases b with singleB | ⟨d, others, rfl⟩
    · have looks := appearances_perm reducedA reducedB keyedA keyedB same
      have legibleA := isLegible_of_hasTermKey (keyedA a (by simp [singleA]))
      have legibleB := isLegible_of_hasTermKey (keyedB b (by simp [singleB]))
      rw [singleA, singleB] at looks
      have look := List.singleton_perm_singleton.mp looks
      simp only [appearance, Prod.mk.injEq] at look
      simp only [render, Face.isLegibleTimes, legibleA, legibleB, look.2.1, look.2.2]
    · exact (similar_of_weights reducedB reducedA keyedB keyedA same.symm).render.symm
  · exact (similar_of_weights reducedA reducedB keyedA keyedB same).render

/-- A way to add up expressions two at a time. -/
inductive Bracketing
  | leaf (e : Expr)
  | node (left right : Bracketing)

namespace Bracketing

def leaves : Bracketing → List Expr
  | leaf e => [e]
  | node left right => left.leaves ++ right.leaves

def total : Bracketing → Except Fault Expr
  | leaf e => .ok e
  | node left right => do add (← left.total) (← right.total)

variable {s t : Bracketing}

theorem total_node {left right : Bracketing} (returned : (node left right).total = .ok r) :
    ∃ a b, left.total = .ok a ∧ right.total = .ok b ∧ add a b = .ok r := by
  obtain ⟨a, first, rest⟩ := Outcome.bind_ok returned
  obtain ⟨b, second, added⟩ := Outcome.bind_ok rest
  exact ⟨a, b, first, second, added⟩

theorem total_node_eq {left right : Bracketing} {a b : Expr} (first : left.total = .ok a)
    (second : right.total = .ok b) : (node left right).total = add a b := by
  rw [Bracketing.total, first, second]
  rfl

/-- A sum has the weights of all that was added up. -/
theorem weights_total (reduced : ∀ e ∈ t.leaves, IsReduced e) (returned : t.total = .ok r) :
    IsReduced r ∧ weights r = (t.leaves.map weights).sum := by
  induction t generalizing r with
  | leaf e =>
    cases returned
    exact ⟨reduced e List.mem_cons_self, by simp [leaves]⟩
  | node left right ihLeft ihRight =>
    obtain ⟨a, b, first, second, added⟩ := total_node returned
    obtain ⟨reducedA, weightsA⟩ :=
      ihLeft (fun e member => reduced e (List.mem_append_left _ member)) first
    obtain ⟨reducedB, weightsB⟩ :=
      ihRight (fun e member => reduced e (List.mem_append_right _ member)) second
    refine ⟨reducedA.add reducedB added, ?_⟩
    rw [weights_add reducedA.formed reducedB.formed added, weightsA, weightsB, leaves, List.map_append,
      List.sum_append]

theorem total_kept {kept : Expr → Prop} (keeps : KeptByAddition kept)
    (reduced : ∀ e ∈ t.leaves, IsReduced e) (holds : ∀ e ∈ t.leaves, kept e)
    (returned : t.total = .ok r) : kept r := by
  induction t generalizing r with
  | leaf e =>
    cases returned
    exact holds e List.mem_cons_self
  | node left right ihLeft ihRight =>
    obtain ⟨a, b, first, second, added⟩ := total_node returned
    have reducedLeft := fun e member => reduced e (List.mem_append_left right.leaves member)
    have reducedRight := fun e member => reduced e (List.mem_append_right left.leaves member)
    exact keeps.add (weights_total reducedLeft first).1.formed (weights_total reducedRight second).1.formed
      (ihLeft reducedLeft (fun e member => holds e (List.mem_append_left _ member)) first)
      (ihRight reducedRight (fun e member => holds e (List.mem_append_right _ member)) second) added

/-- A sum is returned where the keys of all terms can be written out, and so can its own. -/
theorem total_keyed (reduced : ∀ e ∈ t.leaves, IsReduced e) (keyed : ∀ e ∈ t.leaves, IsKeyed e) :
    ∃ r, t.total = .ok r ∧ IsKeyed r := by
  induction t with
  | leaf e => exact ⟨e, rfl, keyed e List.mem_cons_self⟩
  | node left right ihLeft ihRight =>
    have reducedLeft := fun e member => reduced e (List.mem_append_left right.leaves member)
    have reducedRight := fun e member => reduced e (List.mem_append_right left.leaves member)
    obtain ⟨a, first, keyedA⟩ := ihLeft reducedLeft fun e member => keyed e (List.mem_append_left _ member)
    obtain ⟨b, second, keyedB⟩ :=
      ihRight reducedRight fun e member => keyed e (List.mem_append_right _ member)
    have formedA := (weights_total reducedLeft first).1.formed
    have formedB := (weights_total reducedRight second).1.formed
    have total := total_node_eq first second
    rcases add_outcome a b with ⟨r, returned⟩ | ⟨_, t, member, keyless⟩
    · exact ⟨r, total.trans returned, keyedA.add formedA formedB keyedB returned⟩
    · rcases List.mem_append.mp member with inside | inside
      · rw [keyedA t inside] at keyless
        cases keyless
      · rw [keyedB t inside] at keyless
        cases keyless

/-- Apart from a key that cannot be written out, nothing keeps a sum from being returned. -/
theorem total_outcome (reduced : ∀ e ∈ t.leaves, IsReduced e) :
    (∃ r, t.total = .ok r) ∨ (t.total = .error .unsupported ∧ ∃ e ∈ t.leaves, ¬ IsKeyed e) := by
  have refused (fault : Fault) (failed : t.total = .error fault) : fault = .unsupported := by
    clear reduced
    induction t generalizing fault with
    | leaf => cases failed
    | node left right ihLeft ihRight =>
      rw [Bracketing.total] at failed
      cases first : left.total with
      | error => exact ihLeft _ (by rw [first] at failed ⊢; exact failed)
      | ok a =>
        cases second : right.total with
        | error => exact ihRight _ (by rw [first, second] at failed; rw [second]; exact failed)
        | ok b =>
          rw [first, second] at failed
          have sum : add a b = .error fault := failed
          rcases add_outcome a b with ⟨r, returned⟩ | ⟨unsupported, _⟩
          · rw [returned] at sum
            cases sum
          · rw [unsupported] at sum
            exact (Except.error.inj sum).symm
  cases outcome : t.total with
  | ok r => exact .inl ⟨r, rfl⟩
  | error fault =>
    refine .inr ⟨by rw [refused fault outcome], ?_⟩
    by_contra keyed
    push Not at keyed
    obtain ⟨r, returned, _⟩ := total_keyed reduced keyed
    rw [outcome] at returned
    cases returned

/-- What has a term without a key is added to nothing but zero. -/
theorem total_eq_of_keyless (member : e ∈ t.leaves) (keyless : ¬ IsKeyed e)
    (returned : t.total = .ok r) : r = e := by
  induction t generalizing r with
  | leaf =>
    obtain rfl := List.mem_singleton.mp member
    exact (Except.ok.inj returned).symm
  | node left right ihLeft ihRight =>
    obtain ⟨a, b, first, second, added⟩ := total_node returned
    have numeric (c : Rat) : IsKeyed (number c) := by
      intro t inside
      obtain rfl := List.mem_singleton.mp inside
      rfl
    have zero {e : Expr} (none : e.isZero = true) : IsKeyed e := eq_zero_of_isZero none ▸ numeric 0
    rcases List.mem_append.mp member with inside | inside
    · obtain rfl := ihLeft inside first
      rcases add_cases added with ⟨none, _⟩ | ⟨_, same⟩ | ⟨x, y, rfl, _⟩ | ⟨keyed, _⟩
      · exact absurd (zero none) keyless
      · exact same
      · exact absurd (numeric x) keyless
      · exact absurd (fun t listed => keyed t (List.mem_append_left _ listed)) keyless
    · obtain rfl := ihRight inside second
      rcases add_cases added with ⟨_, same⟩ | ⟨none, _⟩ | ⟨x, y, _, rfl, _⟩ | ⟨keyed, _⟩
      · exact same
      · exact absurd (zero none) keyless
      · exact absurd (numeric y) keyless
      · exact absurd (fun t listed => keyed t (List.mem_append_right _ listed)) keyless

end Bracketing

theorem summands_neg (formed : e.WellFormed) :
    e.neg.summands = e.summands.map fun t => t.withCoeff (-t.coeff) := by
  cases e with
  | sum c terms p =>
    by_cases plain : p = 1
    · subst plain
      change (sum (-c) terms 1).summands = _
      rw [summands_plain, summands_plain, List.map_map]
      refine List.map_congr_left fun t member => ?_
      have formedT := allWellFormed_iff.mp formed.2.2.2 t member
      rw [Function.comp_apply, withCoeff_withCoeff, formedT.coeff_withCoeff, mul_neg]
    · change (sum (-c) terms p).summands = _
      rw [summands, if_neg plain, summands, if_neg plain]
      rfl
  | foreign => exact formed.elim
  | _ => rfl

theorem coeff_summands (formed : e.WellFormed) {t : Expr} (member : t ∈ e.summands) (c : Rat) :
    (t.withCoeff c).coeff = c := by
  rcases summands_cases e with single | ⟨d, terms, rfl⟩
  · rw [single] at member
    obtain rfl := List.mem_singleton.mp member
    exact formed.coeff_withCoeff c
  · rw [summands_plain] at member
    obtain ⟨u, inside, rfl⟩ := List.mem_map.mp member
    rw [withCoeff_withCoeff]
    exact (allWellFormed_iff.mp formed.2.2.2 u inside).coeff_withCoeff c

theorem weights_neg (formed : e.WellFormed) : weights e.neg = -weights e := by
  rw [weights, weights, summands_neg formed, List.sum_neg, List.map_map, List.map_map]
  refine congrArg List.sum (List.map_congr_left fun t member => ?_)
  rw [Function.comp_apply, Function.comp_apply, termKey_withCoeff, coeff_summands formed member,
    Finsupp.single_neg]

theorem IsReduced.neg (reduced : IsReduced e) : IsReduced e.neg := by
  refine ⟨reduced.formed.neg, fun proper t member => ?_⟩
  have nonzero : e.isZero = false := by
    rw [Bool.eq_false_iff]
    intro none
    rw [eq_zero_of_isZero none] at proper
    cases proper
  rw [summands_neg reduced.formed] at member
  obtain ⟨u, inside, rfl⟩ := List.mem_map.mp member
  rw [coeff_summands reduced.formed inside]
  exact neg_ne_zero.mpr (reduced.nonzero nonzero u inside)

theorem IsKeyed.neg (formed : e.WellFormed) (keyed : IsKeyed e) : IsKeyed e.neg := by
  intro t member
  rw [summands_neg formed] at member
  obtain ⟨u, inside, rfl⟩ := List.mem_map.mp member
  rw [hasTermKey_withCoeff]
  exact keyed u inside

/-- An expression and its opposite cancel. -/
theorem add_neg_eq_zero (reduced : IsReduced e) (keyed : IsKeyed e) : add e e.neg = .ok zero := by
  rcases add_outcome e e.neg with ⟨r, returned⟩ | ⟨_, t, member, keyless⟩
  · have none : weights r = 0 := by
      rw [weights_add reduced.formed reduced.formed.neg returned, weights_neg reduced.formed,
        add_neg_cancel]
    rw [returned, eq_zero_of_isZero ((reduced.add reduced.neg returned).isZero_of_weights none)]
  · rcases List.mem_append.mp member with inside | inside
    · rw [keyed t inside] at keyless
      cases keyless
    · rw [keyed.neg reduced.formed t inside] at keyless
      cases keyless

/-- Expressions add up to the same text in any order and with any brackets; only a term whose key cannot
be written out keeps the sum from being returned. An expression and its opposite add up to zero. -/
theorem sum_independent_of_order {s t : Bracketing} (perm : s.leaves.Perm t.leaves)
    (reduced : ∀ e ∈ s.leaves, IsReduced e) :
    (∀ a b, s.total = .ok a → t.total = .ok b → a.render = b.render) ∧
      ((∃ a, s.total = .ok a) ∨
        (s.total = .error .unsupported ∧ ∃ e ∈ s.leaves, ¬ IsKeyed e)) ∧
      ∀ e ∈ s.leaves, IsKeyed e → add e e.neg = .ok zero := by
  have reducedT : ∀ e ∈ t.leaves, IsReduced e := fun e member => reduced e (perm.mem_iff.mpr member)
  refine ⟨fun a b returnedA returnedB => ?_, Bracketing.total_outcome reduced,
    fun e member keyed => add_neg_eq_zero (reduced e member) keyed⟩
  by_cases keyed : ∀ e ∈ s.leaves, IsKeyed e
  · obtain ⟨reducedA, weightsA⟩ := Bracketing.weights_total reduced returnedA
    obtain ⟨reducedB, weightsB⟩ := Bracketing.weights_total reducedT returnedB
    have keyedA : IsKeyed a := by
      obtain ⟨r, returned, keyedR⟩ := Bracketing.total_keyed reduced keyed
      obtain rfl : r = a := Except.ok.inj (returned.symm.trans returnedA)
      exact keyedR
    have keyedB : IsKeyed b := by
      obtain ⟨r, returned, keyedR⟩ := Bracketing.total_keyed reducedT fun e member =>
        keyed e (perm.mem_iff.mpr member)
      obtain rfl : r = b := Except.ok.inj (returned.symm.trans returnedB)
      exact keyedR
    refine render_eq_of_weights reducedA reducedB keyedA keyedB ?_
    rw [weightsA, weightsB, (perm.map weights).sum_eq]
  · -- A summand without a key is the whole sum, however the others are arranged around it.
    push Not at keyed
    obtain ⟨e, member, keyless⟩ := keyed
    rw [Bracketing.total_eq_of_keyless member keyless returnedA,
      Bracketing.total_eq_of_keyless (perm.mem_iff.mp member) keyless returnedB]

theorem isReduced_of_summands (formed : e.WellFormed) (single : e.summands = [e])
    (nonzero : e.coeff ≠ 0) : IsReduced e := by
  refine ⟨formed, fun _ t member => ?_⟩
  rw [single] at member
  obtain rfl := List.mem_singleton.mp member
  exact nonzero

/-- The sum `x + 1`, the sine of `x` and `-x`, from the left and from the right. -/
theorem sum_of_sine_either_way :
    let succ := sum 1 [bare "x", number 1] 1
    let sine := call 1 "sin" [bare "x"] 1
    let opposite := symbol (-1) "x" 1
    let left := Bracketing.node (.node (.leaf succ) (.leaf sine)) (.leaf opposite)
    let right := Bracketing.node (.leaf opposite) (.node (.leaf sine) (.leaf succ))
    left.leaves.Perm right.leaves ∧ (∀ e ∈ left.leaves, IsReduced e) ∧
      ∀ a b, left.total = .ok a → right.total = .ok b → a.render = b.render := by
  intro succ sine opposite left right
  have perm : left.leaves.Perm right.leaves := List.reverse_perm right.leaves
  have name : (bare "x").WellFormed := wellFormed_bare (by decide) (by decide)
  have reduced : ∀ e ∈ left.leaves, IsReduced e := by
    intro e member
    simp only [left, Bracketing.leaves, List.cons_append, List.nil_append, List.mem_cons,
      List.not_mem_nil, or_false] at member
    rcases member with rfl | rfl | rfl
    · exact ⟨wellFormed_succ_x, fun _ => by decide +kernel⟩
    · exact isReduced_of_summands ⟨one_ne_zero, one_ne_zero, by decide, by decide, name, trivial⟩ rfl
        one_ne_zero
    · exact isReduced_of_summands ⟨by decide, one_ne_zero, .inl (by decide), by decide, by decide⟩ rfl
        (by decide)
  exact ⟨perm, reduced, (sum_independent_of_order perm reduced).1⟩

theorem wellFormed_x_plus_zero : (sum 1 [bare "x", number 0] 1).WellFormed := by decide +kernel

/-- Where sums depend on order: a power with too many digits to be written out does not cancel with its
opposite, and a zero that stands among the terms of a sum is lost only when something is added. -/
theorem sums_dependent_on_order :
    (∃ e : Expr, e.WellFormed ∧ ¬ ∃ r, add e e.neg = .ok r) ∧
      ∃ (s t : Bracketing) (a b : Expr), s.leaves.Perm t.leaves ∧ (∀ e ∈ s.leaves, e.WellFormed) ∧
        s.total = .ok a ∧ t.total = .ok b ∧ a.render ≠ b.render := by
  constructor
  · obtain ⟨n, positive, long⟩ := exists_not_isWritable
    have nonzero : (n : Rat) ≠ 0 := Nat.cast_ne_zero.mpr positive
    refine ⟨symbol 1 "x" n, ⟨one_ne_zero, nonzero, .inl (by decide), fun digits => absurd digits (by decide),
      fun same => absurd same (by decide)⟩, ?_⟩
    rintro ⟨r, returned⟩
    rcases add_cases returned with ⟨none, _⟩ | ⟨none, _⟩ | ⟨x, y, same, _⟩ | ⟨keyed, _⟩
    · cases none
    · cases none
    · cases same
    · have legible := keyed _ List.mem_cons_self
      rw [hasTermKey_symbol, long] at legible
      cases legible
  · have formed : (bare "y").WellFormed := wellFormed_bare (by decide) (by decide)
    have keyed : IsKeyed (bare "y") := by
      intro t member
      obtain rfl := List.mem_singleton.mp member
      decide +kernel
    have cancels : add (bare "y") (symbol (-1) "y" 1) = .ok zero :=
      add_neg_eq_zero (isReduced_of_summands formed rfl one_ne_zero) keyed
    let s : Bracketing := .node (.node (.leaf (sum 1 [bare "x", number 0] 1)) (.leaf (bare "y")))
      (.leaf (symbol (-1) "y" 1))
    have shown : (s.total.toOption.map fun r => r.render.toOption) = some (some "x") := by decide +kernel
    obtain ⟨r, returned, named⟩ := Option.map_eq_some_iff.mp shown
    replace returned := Outcome.ok_of_toOption returned
    replace named := Outcome.ok_of_toOption named
    let t : Bracketing := .node (.leaf (sum 1 [bare "x", number 0] 1))
      (.node (.leaf (bare "y")) (.leaf (symbol (-1) "y" 1)))
    have kept : t.total = .ok (sum 1 [bare "x", number 0] 1) := by
      have inner : (Bracketing.node (.leaf (bare "y")) (.leaf (symbol (-1) "y" 1))).total = .ok zero := by
        rw [Bracketing.total_node_eq rfl rfl, cancels]
      rw [Bracketing.total_node_eq rfl inner]
      exact (if_neg Bool.false_ne_true).trans (if_pos rfl)
    refine ⟨s, t, r, sum 1 [bare "x", number 0] 1, .refl _, ?_, returned, kept, ?_⟩
    · intro e member
      simp only [s, Bracketing.leaves, List.cons_append, List.nil_append, List.mem_cons,
        List.not_mem_nil, or_false] at member
      rcases member with rfl | rfl | rfl
      · exact wellFormed_x_plus_zero
      · exact formed
      · exact formed.neg
    · intro same
      rw [named] at same
      have shown := text_of_render same.symm
      have plain : (sum 1 [bare "x", number 0] 1).text = (spreadLayout [bare "x", number 0]).text 1 := by
        rw [Expr.text, (layout_sum 1 _ 1).2.2, if_pos rfl]
        rfl
      refine not_sealed_spreadLayout wellFormed_x_plus_zero.2.2.1 wellFormed_x_plus_zero.2.2.2 1 ?_
      rw [← plain, shown]
      decide

end ExactAlgebra.Expr
