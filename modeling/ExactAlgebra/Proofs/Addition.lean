import ExactAlgebra.Proofs.Ranking
import ExactAlgebra.Proofs.WellFormed
import Mathlib

/-! Addition keeps the normal form. Collected terms have keys of their own from the first term on;
content and sign are put right once, when the sum is built. -/
namespace ExactAlgebra.Expr

/-- A term on its way into a sum. Its coefficient may have become zero. -/
structure IsTerm (t : Expr) : Prop where
  formed : t.unit.WellFormed
  keyed : t.hasTermKey = true
  flat : t.isPlainSum = false

/-- Terms collected so far, each beside its rank, no two of them alike. -/
structure Collected (terms : List RankedTerm) : Prop where
  ranked : ∀ t ∈ terms, t.1 = t.2.termRank t.2.face
  distinct : (terms.map (·.1.key)).Nodup
  proper : ∀ t ∈ terms, IsTerm t.2

theorem Collected.nil : Collected [] := ⟨by simp, by simp, by simp⟩

theorem IsTerm.withCoeff {t : Expr} (proper : IsTerm t) (c : Rat) : IsTerm (t.withCoeff c) where
  formed := by simpa only [unit, withCoeff_withCoeff] using proper.formed
  keyed := by rw [hasTermKey_withCoeff]; exact proper.keyed
  flat := by rw [isPlainSum_withCoeff]; exact proper.flat

theorem keys_insertTerm (terms : List RankedTerm) (new : RankedTerm) :
    (insertTerm terms new).map (·.1.key) =
      if new.1.key ∈ terms.map (·.1.key) then terms.map (·.1.key)
      else terms.map (·.1.key) ++ [new.1.key] := by
  induction terms with
  | nil => simp [insertTerm]
  | cons t rest ih =>
    obtain ⟨rank, t⟩ := t
    by_cases alike : rank.key = new.1.key
    · simp [insertTerm, alike]
    · have other : new.1.key ≠ rank.key := Ne.symm alike
      simp only [insertTerm, beq_iff_eq, alike, if_false, List.map_cons, ih, List.mem_cons, other,
        false_or]
      split <;> simp

theorem mem_insertTerm {terms : List RankedTerm} {new t : RankedTerm}
    (member : t ∈ insertTerm terms new) :
    t = new ∨ t ∈ terms ∨ ∃ old ∈ terms, t = (old.1, old.2.withCoeff (old.2.coeff + new.2.coeff)) := by
  induction terms with
  | nil => exact .inl (List.mem_singleton.mp member)
  | cons old rest ih =>
    obtain ⟨rank, u⟩ := old
    simp only [insertTerm] at member
    split at member
    · rcases List.mem_cons.mp member with rfl | later
      · exact .inr (.inr ⟨(rank, u), List.mem_cons_self, rfl⟩)
      · exact .inr (.inl (List.mem_cons_of_mem _ later))
    · rcases List.mem_cons.mp member with rfl | later
      · exact .inr (.inl List.mem_cons_self)
      · rcases ih later with same | kept | ⟨old, inside, same⟩
        · exact .inl same
        · exact .inr (.inl (List.mem_cons_of_mem _ kept))
        · exact .inr (.inr ⟨old, List.mem_cons_of_mem _ inside, same⟩)

theorem Collected.insertTerm {terms : List RankedTerm} {new : RankedTerm}
    (collected : Collected terms) (ranked : new.1 = new.2.termRank new.2.face)
    (proper : IsTerm new.2) : Collected (insertTerm terms new) where
  ranked := by
    intro t member
    rcases mem_insertTerm member with rfl | kept | ⟨old, inside, rfl⟩
    · exact ranked
    · exact collected.ranked t kept
    · rw [termRank_withCoeff]
      exact collected.ranked old inside
  distinct := by
    rw [keys_insertTerm]
    split
    · exact collected.distinct
    next fresh => exact List.nodup_append.mpr ⟨collected.distinct, List.nodup_singleton _,
        fun a inside b last => by
          rintro rfl
          exact fresh (List.mem_singleton.mp last ▸ inside)⟩
  proper := by
    intro t member
    rcases mem_insertTerm member with rfl | kept | ⟨old, inside, rfl⟩
    · exact proper
    · exact collected.proper t kept
    · exact (collected.proper old inside).withCoeff _

theorem Collected.foldl_insertTerm {terms collected : List RankedTerm}
    (before : Collected collected)
    (proper : ∀ t ∈ terms, t.1 = t.2.termRank t.2.face ∧ IsTerm t.2) :
    Collected (terms.foldl Expr.insertTerm collected) := by
  induction terms generalizing collected with
  | nil => exact before
  | cons t rest ih =>
    obtain ⟨ranked, term⟩ := proper t List.mem_cons_self
    exact ih (before.insertTerm ranked term) fun u later => proper u (List.mem_cons_of_mem _ later)

theorem Collected.sublist {terms kept : List RankedTerm} (collected : Collected terms)
    (sub : kept.Sublist terms) : Collected kept where
  ranked t member := collected.ranked t (sub.subset member)
  distinct := collected.distinct.sublist (sub.map _)
  proper t member := collected.proper t (sub.subset member)

/-- Sorting terms whose keys differ puts the leading one first. -/
theorem head?_sortTerms_leading {best : RankedTerm} {rest : List RankedTerm}
    (collected : Collected (best :: rest)) (f : Expr → Rat) :
    (sortTerms ((best :: rest).map fun t => t.2.withCoeff (f t.2))).head? =
      some ((leading best rest).2.withCoeff (f (leading best rest).2)) := by
  obtain ⟨member, least⟩ := leading_spec best rest
  have pairs : ((best :: rest).map fun t => t.2.withCoeff (f t.2)).map
      (fun t => (t.termRank t.face, t)) =
        (best :: rest).map fun t => (t.1, t.2.withCoeff (f t.2)) := by
    rw [List.map_map]
    refine List.map_congr_left fun t inside => ?_
    simp only [Function.comp_apply, termRank_withCoeff, collected.ranked t inside]
  rw [sortTerms, pairs, sortByRank_map (fun t : Expr => t.withCoeff (f t)),
    List.head?_map,
    head?_sortByRank TermRank.le_trans TermRank.le_total member least, Option.map_some]
  intro a ha b hb before after
  exact List.inj_on_of_nodup_map collected.distinct ha hb
    (TermRank.key_eq_of_le_of_le before after)

/-- The number that is drawn out of the terms of a sum: their content, with the sign of the leading
term. -/
def share (best : RankedTerm) (rest : List RankedTerm) : Rat :=
  if (leading best rest).2.coeff < 0 then -content ((best :: rest).map fun t => t.2.coeff)
  else content ((best :: rest).map fun t => t.2.coeff)

theorem share_ne_zero {best : RankedTerm} (nonzero : best.2.coeff ≠ 0) (rest : List RankedTerm) :
    share best rest ≠ 0 := by
  have inside : best.2.coeff ∈ (best :: rest).map fun t => t.2.coeff :=
    List.mem_map_of_mem List.mem_cons_self
  have positive := content_pos inside nonzero
  unfold share
  split
  · exact neg_ne_zero.mpr positive.ne'
  · exact positive.ne'

/-- Terms without a zero among them make normal terms once they are divided by their share. -/
theorem normalTerms_ofTerms {best : RankedTerm} {rest : List RankedTerm}
    (collected : Collected (best :: rest)) (several : rest ≠ [])
    (nonzero : ∀ t ∈ best :: rest, t.2.coeff ≠ 0) {c : Rat} (drawn : c = share best rest) :
    NormalTerms ((best :: rest).map fun t => t.2.withCoeff (t.2.coeff / c)) := by
  set coeffs := (best :: rest).map fun t => t.2.coeff with hcoeffs
  have nonzeroCoeffs : ∀ d ∈ coeffs, d ≠ 0 := by
    intro d inside
    obtain ⟨t, member, rfl⟩ := List.mem_map.mp inside
    exact nonzero t member
  have bestMember : best.2.coeff ∈ coeffs := List.mem_map_of_mem List.mem_cons_self
  have positive := content_pos bestMember (nonzeroCoeffs _ bestMember)
  -- Up to sign `c` is the content, and signs do not matter for divisors and denominators.
  have quotient (d : Rat) : d / c = d / content coeffs ∨ d / c = -(d / content coeffs) := by
    rw [drawn, share, ← hcoeffs]
    split
    · exact .inr (by rw [div_neg])
    · exact .inl rfl
  have coeffOf (t : RankedTerm) (member : t ∈ best :: rest) :
      (t.2.withCoeff (t.2.coeff / c)).coeff = t.2.coeff / c := by
    have formed := (collected.proper t member).formed
    simpa only [unit, withCoeff_withCoeff] using formed.coeff_withCoeff (t.2.coeff / c)
  have leads := leading_spec best rest
  constructor
  · simp only [List.length_map, List.length_cons]
    have := List.length_pos_iff.mpr several
    omega
  · intro t member
    obtain ⟨u, inside, rfl⟩ := List.mem_map.mp member
    rw [hasTermKey_withCoeff]
    exact (collected.proper u inside).keyed
  · have keys : ((best :: rest).map fun t => t.2.withCoeff (t.2.coeff / c)).map termKey =
        (best :: rest).map (·.1.key) := by
      rw [List.map_map]
      refine List.map_congr_left fun t inside => ?_
      simp only [Function.comp_apply, termKey_withCoeff, collected.ranked t inside, termRank_key]
    rw [keys]
    exact collected.distinct
  · intro t member
    obtain ⟨u, inside, rfl⟩ := List.mem_map.mp member
    rw [isPlainSum_withCoeff]
    exact (collected.proper u inside).flat
  · intro t member
    obtain ⟨u, inside, rfl⟩ := List.mem_map.mp member
    have integral : (u.2.coeff / content coeffs).den = 1 :=
      div_content_den (List.mem_map_of_mem inside) (nonzero u inside)
    rw [coeffOf u inside]
    rcases quotient u.2.coeff with same | opposite
    · rw [same, integral]
    · rw [opposite, Rat.neg_den, integral]
  · have divided : ((best :: rest).map fun t => t.2.withCoeff (t.2.coeff / c)).map coeff =
        coeffs.map (· / c) := by
      rw [hcoeffs, List.map_map, List.map_map]
      exact List.map_congr_left fun t inside => coeffOf t inside
    rw [divided]
    apply Nat.dvd_one.mp
    rw [← commonDivisor_div_content (List.ne_nil_of_mem bestMember) nonzeroCoeffs]
    refine dvd_commonDivisor.mpr fun q member => ?_
    obtain ⟨d, inside, rfl⟩ := List.mem_map.mp member
    have divides := dvd_commonDivisor.mp (dvd_refl (commonDivisor (coeffs.map (· / c)))) (d / c)
      (List.mem_map_of_mem inside)
    rcases quotient d with same | opposite
    · rwa [same] at divides
    · rwa [opposite, Rat.neg_num, Int.natAbs_neg] at divides
  · rw [head?_sortTerms_leading collected fun t => t.coeff / c]
    intro t member
    obtain rfl := Option.mem_some_iff.mp member
    rw [coeffOf _ leads.1, drawn, share, ← hcoeffs]
    split
    next negative => exact div_pos_of_neg_of_neg negative (neg_neg_of_pos positive)
    next other =>
      exact div_pos (lt_of_le_of_ne (not_lt.mp other) (nonzero _ leads.1).symm) positive

/-- The terms that have not cancelled. -/
def remaining (terms : List RankedTerm) : List RankedTerm :=
  terms.filter fun t => decide (t.2.coeff ≠ 0)

theorem mem_remaining {terms : List RankedTerm} {t : RankedTerm} :
    t ∈ remaining terms ↔ t ∈ terms ∧ t.2.coeff ≠ 0 := by
  simp [remaining]

theorem ofTerms_of_remaining_nil {terms : List RankedTerm} (left : remaining terms = []) :
    ofTerms terms = zero := by
  unfold remaining at left
  unfold ofTerms
  rw [left]

theorem ofTerms_of_remaining_single {terms : List RankedTerm} {t : RankedTerm}
    (left : remaining terms = [t]) : ofTerms terms = t.2 := by
  unfold remaining at left
  unfold ofTerms
  rw [left]

theorem ofTerms_of_remaining_several {terms : List RankedTerm} {t u : RankedTerm}
    {rest : List RankedTerm} (left : remaining terms = t :: u :: rest) :
    ofTerms terms = sum (share t (u :: rest))
      ((t :: u :: rest).map fun v => v.2.withCoeff (v.2.coeff / share t (u :: rest))) 1 := by
  unfold remaining at left
  unfold ofTerms
  rw [left]
  simp only [List.map_map, Function.comp_def]
  rfl

/-- What a sum of collected terms is: zero, a single term, or a plain sum of normal terms, from which
a nonzero number was drawn out. -/
theorem ofTerms_cases {terms : List RankedTerm} (collected : Collected terms) :
    (remaining terms = [] ∧ ofTerms terms = zero) ∨
      (∃ t, remaining terms = [t] ∧ ofTerms terms = t.2) ∨
      ∃ c, c ≠ 0 ∧
        ofTerms terms =
          sum c ((remaining terms).map fun t => t.2.withCoeff (t.2.coeff / c)) 1 ∧
        NormalTerms ((remaining terms).map fun t => t.2.withCoeff (t.2.coeff / c)) := by
  have kept : Collected (remaining terms) := collected.sublist List.filter_sublist
  have nonzero : ∀ t ∈ remaining terms, t.2.coeff ≠ 0 := fun t member => (mem_remaining.mp member).2
  match left : remaining terms with
  | [] => exact .inl ⟨rfl, ofTerms_of_remaining_nil left⟩
  | [t] => exact .inr (.inl ⟨t, rfl, ofTerms_of_remaining_single left⟩)
  | t :: u :: rest =>
    rw [left] at kept nonzero
    exact .inr (.inr ⟨share t (u :: rest), share_ne_zero (nonzero t List.mem_cons_self) _,
      ofTerms_of_remaining_several left,
      normalTerms_ofTerms kept (List.cons_ne_nil _ _) nonzero rfl⟩)

theorem ofTerms_wellFormed {terms : List RankedTerm} (collected : Collected terms) :
    (ofTerms terms).WellFormed := by
  have present : ∀ t ∈ remaining terms, t.2.coeff ≠ 0 ∧ t.2.unit.WellFormed := fun t member =>
    ⟨(mem_remaining.mp member).2, (collected.proper t (mem_remaining.mp member).1).formed⟩
  rcases ofTerms_cases collected with ⟨_, same⟩ | ⟨t, left, same⟩ | ⟨c, nonzero, same, normal⟩
  · rw [same]
    trivial
  · obtain ⟨coeff, formed⟩ := present t (left ▸ List.mem_cons_self)
    rw [same]
    exact formed.of_unit (.inr coeff)
  · rw [same]
    refine ⟨nonzero, one_ne_zero, normal, allWellFormed_iff.mpr fun u member => ?_⟩
    obtain ⟨v, inside, rfl⟩ := List.mem_map.mp member
    obtain ⟨coeff, formed⟩ := present v inside
    simpa only [unit, withCoeff_withCoeff] using formed.withCoeff (div_ne_zero coeff nonzero)

theorem summands_flat {e : Expr} (flat : e.isPlainSum = false) : e.summands = [e] := by
  cases e with
  | sum c terms p => exact if_neg (by simpa [isPlainSum] using flat)
  | _ => rfl

theorem terms_flat {e : Expr} (flat : e.isPlainSum = false) : e.terms = [e] := by
  cases e with
  | sum c terms p => exact if_neg (by simpa [isPlainSum] using flat)
  | _ => rfl

theorem terms_plain (c : Rat) (terms : List Expr) : (sum c terms 1).terms = sortTerms terms := by
  rw [Expr.terms, if_pos rfl]

/-- The terms over which a product is distributed are well formed, and no sums. -/
theorem WellFormed.terms {e : Expr} (formed : e.WellFormed) :
    ∀ t ∈ e.terms, t.WellFormed ∧ t.isPlainSum = false := by
  intro t member
  cases plain : e.isPlainSum with
  | false =>
    obtain rfl := List.mem_singleton.mp (terms_flat plain ▸ member)
    exact ⟨formed, plain⟩
  | true =>
    cases e with
    | sum c terms p =>
      obtain rfl : p = 1 := by simpa [isPlainSum] using plain
      rw [terms_plain] at member
      have inside := (sortTerms_perm terms).mem_iff.mp member
      exact ⟨allWellFormed_iff.mp formed.2.2.2 t inside, formed.2.2.1.flat t inside⟩
    | _ => cases plain

/-- What holds of the terms of a sum that has it holds of the terms over which a product is distributed. -/
theorem forall_terms {kept : Expr → Prop} (below : ∀ {c terms p}, kept (sum c terms p) → ∀ t ∈ terms, kept t)
    {e : Expr} (holds : kept e) : ∀ t ∈ e.terms, kept t := by
  intro t member
  cases plain : e.isPlainSum with
  | false =>
    obtain rfl := List.mem_singleton.mp (terms_flat plain ▸ member)
    exact holds
  | true =>
    cases e with
    | sum c terms p =>
      obtain rfl : p = 1 := by simpa [isPlainSum] using plain
      rw [terms_plain] at member
      exact below holds t ((sortTerms_perm terms).mem_iff.mp member)
    | _ => cases plain

/-- The parts of a well-formed tree that enter a sum are terms, if their keys can be written. -/
theorem WellFormed.isTerm_summands {a : Expr} (formed : a.WellFormed) {t : Expr}
    (member : t ∈ a.summands) (keyed : t.hasTermKey = true) : IsTerm t := by
  have single (e : Expr) (formed : e.WellFormed) (flat : e.isPlainSum = false)
      (member : t ∈ [e]) : IsTerm t := by
    obtain rfl := List.mem_singleton.mp member
    exact ⟨formed.unit, keyed, flat⟩
  cases a with
  | sum c terms p =>
    simp only [summands] at member
    split at member
    · obtain ⟨u, inside, rfl⟩ := List.mem_map.mp member
      obtain ⟨_, _, normal, all⟩ := formed
      have below : IsTerm u := ⟨(allWellFormed_iff.mp all u inside).unit, normal.keyed u inside,
        normal.flat u inside⟩
      exact below.withCoeff _
    next other => exact single _ formed (by simpa [isPlainSum] using other) member
  | _ => exact single _ formed rfl member

/-- What a sum that was returned is: the other operand when one is zero, a number for two numbers, or
the merged terms of both. -/
theorem add_cases {a b r : Expr} (returned : add a b = .ok r) :
    (a.isZero = true ∧ r = b) ∨ (b.isZero = true ∧ r = a) ∨
      (∃ x y, a = number x ∧ b = number y ∧ r = number (x + y)) ∨
      ((∀ t ∈ a.summands ++ b.summands, t.hasTermKey = true) ∧
        r = mergeTerms ((a.summands ++ b.summands).map rankTerm)) := by
  unfold add at returned
  split at returned
  next zero =>
    cases returned
    exact .inl ⟨zero, rfl⟩
  split at returned
  next zero =>
    cases returned
    exact .inr (.inl ⟨zero, rfl⟩)
  split at returned
  next x y _ _ =>
    cases returned
    exact .inr (.inr (.inl ⟨x, y, rfl, rfl, rfl⟩))
  next =>
    simp only at returned
    split at returned
    next keyed =>
      cases returned
      refine .inr (.inr (.inr ⟨fun t member => ?_, rfl⟩))
      exact List.all_eq_true.mp keyed (rankTerm t) (List.mem_map_of_mem member)
    next => cases returned

/-- The terms of two well-formed trees are collected without two alike ones. -/
theorem collected_summands {a b : Expr} (formedA : a.WellFormed) (formedB : b.WellFormed)
    (keyed : ∀ t ∈ a.summands ++ b.summands, t.hasTermKey = true) :
    Collected (((a.summands ++ b.summands).map rankTerm).foldl insertTerm []) := by
  refine Collected.foldl_insertTerm .nil fun t member => ?_
  obtain ⟨u, inside, rfl⟩ := List.mem_map.mp member
  refine ⟨rfl, ?_⟩
  rcases List.mem_append.mp inside with left | right
  · exact formedA.isTerm_summands left (keyed u inside)
  · exact formedB.isTerm_summands right (keyed u inside)

theorem add_wellFormed {a b r : Expr} (formedA : a.WellFormed) (formedB : b.WellFormed)
    (returned : add a b = .ok r) : r.WellFormed := by
  rcases add_cases returned with ⟨_, rfl⟩ | ⟨_, rfl⟩ | ⟨x, y, rfl, rfl, rfl⟩ | ⟨keyed, rfl⟩
  · exact formedB
  · exact formedA
  · trivial
  · exact ofTerms_wellFormed (collected_summands formedA formedB keyed)

theorem sub_wellFormed {a b r : Expr} (formedA : a.WellFormed) (formedB : b.WellFormed)
    (returned : sub a b = .ok r) : r.WellFormed :=
  add_wellFormed formedA formedB.neg returned

end ExactAlgebra.Expr
