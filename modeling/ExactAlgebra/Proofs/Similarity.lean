import ExactAlgebra.Proofs.Addition
import ExactAlgebra.Proofs.Depiction
import Mathlib

/-! Expressions that are written alike. The order in which the terms of a sum or the factors of a
product were put in is lost in writing; a sum built of terms that are written alike is written alike,
and a plain sum is what its own terms add up to. -/
namespace ExactAlgebra.Expr

/-- Nodes that differ only in children, and in such a way that they are written alike. -/
inductive Similar : Expr → Expr → Prop
  | refl (e : Expr) : Similar e e
  | sum {terms others : List Expr} (c p : Rat) :
      (∀ q, (sum 1 terms q).face = (sum 1 others q).face) →
      Similar (sum c terms p) (sum c others p)
  | product {factors others : List Expr} (c : Rat) :
      (product 1 factors).face = (product 1 others).face →
      Similar (product c factors) (product c others)

/-- Lists that are similar item by item when one is put in another order. -/
def Similars (as bs : List Expr) : Prop := ∃ cs, List.Forall₂ Similar as cs ∧ cs.Perm bs

namespace Similar

variable {a b : Expr}

theorem symm (similar : Similar a b) : Similar b a := by
  cases similar with
  | refl => exact .refl _
  | sum c p same => exact .sum c p fun q => (same q).symm
  | product c same => exact .product c same.symm

theorem face (similar : Similar a b) : a.face = b.face := by
  cases similar with
  | refl => rfl
  | sum c p same => exact same p
  | product c same => exact same

theorem coeff (similar : Similar a b) : a.coeff = b.coeff := by
  cases similar <;> rfl

theorem power (similar : Similar a b) : a.power = b.power := by
  cases similar <;> rfl

theorem isNumber (similar : Similar a b) : a.isNumber = b.isNumber := by
  cases similar <;> rfl

theorem isProduct (similar : Similar a b) : a.isProduct = b.isProduct := by
  cases similar <;> rfl

theorem isPlainSum (similar : Similar a b) : a.isPlainSum = b.isPlainSum := by
  cases similar <;> rfl

theorem termRank (similar : Similar a b) : a.termRank a.face = b.termRank b.face := by
  rw [similar.face]
  cases similar <;> rfl

theorem factorRank (similar : Similar a b) : a.factorRank a.face = b.factorRank b.face := by
  rw [similar.face]
  cases similar <;> rfl

theorem factorSide (similar : Similar a b) : a.factorSide a.face = b.factorSide b.face := by
  rw [similar.face]
  cases similar <;> rfl

theorem withCoeff (similar : Similar a b) (c : Rat) : Similar (a.withCoeff c) (b.withCoeff c) := by
  cases similar with
  | refl => exact .refl _
  | sum _ p same => exact .sum c p same
  | product _ same => exact .product c same

theorem withPower (similar : Similar a b) (p : Rat) : Similar (a.withPower p) (b.withPower p) := by
  cases similar with
  | refl => exact .refl _
  | sum c _ same => exact .sum c p same
  | product c same => exact .product c same

/-- What is written alike has the same text, or none. -/
theorem render (similar : Similar a b) : a.render = b.render := by
  rw [Expr.render, Expr.render, similar.face, similar.coeff]

theorem text (similar : Similar a b) : a.text = b.text := by
  rw [Expr.text, Expr.text, similar.face, similar.coeff]

end Similar

theorem text_of_render {e : Expr} {text : String} (rendered : e.render = .ok text) : e.text = text := by
  unfold render at rendered
  dsimp only at rendered
  split at rendered
  · exact Except.ok.inj rendered
  · cases rendered

/-- Lists with the same images up to order can be matched, if items with the same image match. -/
theorem exists_forall₂_of_perm_map {ι α : Type} {related : ι → ι → Prop} (f : ι → α) {as bs : List ι}
    (perm : (as.map f).Perm (bs.map f))
    (alike : ∀ a ∈ as, ∀ b ∈ bs, f a = f b → related a b) :
    ∃ cs, List.Forall₂ related as cs ∧ cs.Perm bs := by
  induction as generalizing bs with
  | nil =>
    obtain rfl : bs = [] := List.map_eq_nil_iff.mp (List.nil_perm.mp perm)
    exact ⟨[], .nil, .refl _⟩
  | cons a as ih =>
    obtain ⟨b, inside, same⟩ := List.mem_map.mp (perm.mem_iff.mp List.mem_cons_self)
    obtain ⟨before, after, rfl⟩ := List.append_of_mem inside
    have order : (before ++ b :: after).Perm (b :: (before ++ after)) := List.perm_middle
    have rest : (as.map f).Perm ((before ++ after).map f) := by
      have moved := perm.trans (order.map f)
      rw [List.map_cons, List.map_cons, same] at moved
      exact List.perm_cons _ |>.mp moved
    obtain ⟨cs, each, others⟩ := ih rest fun a' later b' there =>
      alike a' (List.mem_cons_of_mem _ later) b' (order.mem_iff.mpr (List.mem_cons_of_mem _ there))
    exact ⟨b :: cs, .cons (alike a List.mem_cons_self b inside same.symm) each,
      (others.cons b).trans order.symm⟩

/-- What the images determine is the same up to order when they are. -/
theorem perm_map_of_perm_map {ι α β : Type} (f : ι → α) (g : ι → β) {as bs : List ι}
    (perm : (as.map f).Perm (bs.map f))
    (determined : ∀ a ∈ as, ∀ b ∈ bs, f a = f b → g a = g b) : (as.map g).Perm (bs.map g) := by
  obtain ⟨cs, each, others⟩ := exists_forall₂_of_perm_map f perm determined
  have same : as.map g = cs.map g :=
    List.forall₂_eq_eq_eq ▸ List.forall₂_map_left_iff.mpr (List.forall₂_map_right_iff.mpr each)
  exact same ▸ others.map g

namespace Similars

variable {as bs : List Expr}

theorem of_perm (perm : as.Perm bs) : Similars as bs :=
  ⟨as, List.forall₂_same.mpr fun a _ => .refl a, perm⟩

theorem perm_left {others : List Expr} (perm : others.Perm as) (similars : Similars as bs) :
    Similars others bs := by
  obtain ⟨cs, each, order⟩ := similars
  obtain ⟨ds, matched, same⟩ := List.perm_comp_forall₂ perm each
  exact ⟨ds, matched, same.trans order⟩

theorem length_eq (similars : Similars as bs) : as.length = bs.length := by
  obtain ⟨cs, each, perm⟩ := similars
  rw [each.length_eq, perm.length_eq]

theorem single {a b : Expr} (similars : Similars [a] [b]) : Similar a b := by
  obtain ⟨cs, each, perm⟩ := similars
  obtain rfl := List.perm_singleton.mp perm
  exact (List.forall₂_cons.mp each).1

/-- What similar expressions have in common, similar lists have in common up to order. -/
theorem images {α : Type} (similars : Similars as bs) (f : Expr → α)
    (respects : ∀ a b, Similar a b → f a = f b) : (as.map f).Perm (bs.map f) := by
  obtain ⟨cs, each, perm⟩ := similars
  have same : as.map f = cs.map f := by
    clear perm
    induction each with
    | nil => rfl
    | cons first _ ih => rw [List.map_cons, List.map_cons, respects _ _ first, ih]
  exact same ▸ perm.map f

/-- Lists with the same images up to order are similar, if expressions with the same image are. -/
theorem of_images {α : Type} (f : Expr → α) (perm : (as.map f).Perm (bs.map f))
    (similar : ∀ a ∈ as, ∀ b ∈ bs, f a = f b → Similar a b) : Similars as bs :=
  exists_forall₂_of_perm_map f perm similar

theorem map (similars : Similars as bs) (f : Expr → Expr)
    (respects : ∀ a b, Similar a b → Similar (f a) (f b)) : Similars (as.map f) (bs.map f) := by
  obtain ⟨cs, each, perm⟩ := similars
  refine ⟨cs.map f, ?_, perm.map f⟩
  exact List.forall₂_map_left_iff.mpr (List.forall₂_map_right_iff.mpr (each.imp respects))

theorem filter (similars : Similars as bs) (p : Expr → Bool)
    (respects : ∀ a b, Similar a b → p a = p b) : Similars (as.filter p) (bs.filter p) := by
  obtain ⟨cs, each, perm⟩ := similars
  refine ⟨cs.filter p, ?_, perm.filter p⟩
  clear perm
  induction each with
  | nil => exact .nil
  | @cons a c _ _ first _ ih =>
    have same := respects a c first
    cases holds : p a with
    | true => simpa [List.filter_cons, ← same, holds] using ⟨first, ih⟩
    | false => simpa [List.filter_cons, ← same, holds] using ih

end Similars

/-- Products of similar factors are similar, if no two factors have the same key. -/
theorem Similars.product {factors others : List Expr} (similars : Similars factors others)
    (distinct : (factors.map baseKey).Nodup) (c : Rat) :
    Similar (product c factors) (product c others) := by
  refine .product c ?_
  have written := similars.images (fun f => (f.factorRank f.face, f.factorSide f.face))
    fun a b similar => by rw [similar.factorRank, similar.factorSide]
  have sorted : (sortFactors factors).map (fun f => f.factorSide f.face) =
      (sortFactors others).map fun f => f.factorSide f.face := by
    rw [← sortByRank_factors, ← sortByRank_factors]
    refine sortByRank_eq_of_perm FactorRank.le_trans FactorRank.le_total written ?_
    intro a insideA b insideB before after
    obtain ⟨f, memberF, rfl⟩ := List.mem_map.mp insideA
    obtain ⟨g, memberG, rfl⟩ := List.mem_map.mp insideB
    have keys : f.baseKey = g.baseKey := FactorRank.key_eq_of_le_of_le before after
    rw [List.inj_on_of_nodup_map distinct memberF memberG keys]
  have inside (fs : List Expr) : sortByRank FactorRank.le (fs.zipWith
      (fun g f => (g.factorRank f, g.factorSide f)) (faces fs)) =
        (sortFactors fs).map fun f => f.factorSide f.face := by
    rw [faces_eq, List.zipWith_map_right, List.zipWith_self, sortByRank_factors]
  have faces : (faces factors).Perm (faces others) := by
    rw [faces_eq, faces_eq]
    exact similars.images Expr.face fun a b similar => similar.face
  have commutes : RightCommutative fun (d : Rat) (f : Face) => d + f.degree :=
    ⟨fun d f g => add_right_comm d f.degree g.degree⟩
  simp only [Expr.face, inside, sorted, faces.foldl_eq, faces.all_eq]

/-- What a sum shows of a term: where it stands, its coefficient and its layout. -/
def appearance (t : Expr) : TermRank × Rat × Layout := (t.termRank t.face, t.coeff, t.face.layout)

theorem Similar.appearance {a b : Expr} (similar : Similar a b) : a.appearance = b.appearance := by
  rw [Expr.appearance, Expr.appearance, similar.termRank, similar.coeff, similar.face]

/-- Sums of terms that look alike are written alike, if no two terms have the same key. -/
theorem face_sum_of_perm {terms others : List Expr}
    (looks : (terms.map appearance).Perm (others.map appearance))
    (distinct : (terms.map termKey).Nodup) (c p : Rat) :
    (sum c terms p).face = (sum c others p).face := by
  have inside (ts : List Expr) : ts.zipWith (fun t f => (t.termRank f, (t.coeff, f.layout)))
      (faces ts) = ts.map appearance := by
    rw [faces_eq, List.zipWith_map_right, List.zipWith_self]
    rfl
  have sorted := sortByRank_eq_of_perm TermRank.le_trans TermRank.le_total looks (by
    intro a insideA b insideB before after
    obtain ⟨t, memberT, rfl⟩ := List.mem_map.mp insideA
    obtain ⟨u, memberU, rfl⟩ := List.mem_map.mp insideB
    have keys := TermRank.key_eq_of_le_of_le before after
    rw [appearance, appearance, termRank_key, termRank_key] at keys
    rw [List.inj_on_of_nodup_map distinct memberT memberU keys])
  simp only [Expr.face, inside, sorted, looks.all_eq]
  rfl

/-- Sums of similar terms are similar, if no two terms have the same key. -/
theorem Similars.sum {terms others : List Expr} (similars : Similars terms others)
    (distinct : (terms.map termKey).Nodup) (c p : Rat) :
    Similar (sum c terms p) (sum c others p) :=
  .sum c p fun q => face_sum_of_perm (similars.images appearance fun _ _ similar => similar.appearance)
    distinct 1 q

theorem summands_plain (c : Rat) (terms : List Expr) :
    (sum c terms 1).summands = terms.map fun t => t.withCoeff (t.coeff * c) := by
  rw [summands, if_pos rfl]

theorem summands_cases (e : Expr) : e.summands = [e] ∨ ∃ c terms, e = sum c terms 1 := by
  cases e with
  | sum c terms p =>
    by_cases plain : p = 1
    · exact .inr ⟨c, terms, by rw [plain]⟩
    · exact .inl (by rw [summands, if_neg plain])
  | _ => exact .inl rfl

theorem contains_iff_summands {x : String} {e : Expr} :
    e.contains x = true ↔ ∃ u ∈ e.summands, u.contains x = true := by
  rcases summands_cases e with single | ⟨c, terms, rfl⟩
  · simp [single]
  · simp [summands_plain, contains, anyContains_iff]

theorem WellFormed.distinct_summands {e : Expr} (formed : e.WellFormed) : (e.summands.map termKey).Nodup := by
  cases e with
  | sum c terms p =>
    by_cases plain : p = 1
    · have keys : ((sum c terms 1).summands.map termKey) = terms.map termKey := by
        rw [summands_plain, List.map_map]
        exact List.map_congr_left fun t _ => termKey_withCoeff t _
      rw [plain, keys]
      exact formed.2.2.1.distinct
    · rw [summands, if_neg plain]
      exact List.nodup_singleton _
  | _ => exact List.nodup_singleton _

theorem WellFormed.summand {e t : Expr} (formed : e.WellFormed) (member : t ∈ e.summands) : t.WellFormed := by
  obtain single | ⟨c, terms, rfl⟩ := summands_cases e
  · rw [single, List.mem_singleton] at member
    exact member ▸ formed
  · rw [summands_plain] at member
    obtain ⟨u, inside, rfl⟩ := List.mem_map.mp member
    have formedU := allWellFormed_iff.mp formed.2.2.2 u inside
    cases number : u.isNumber with
    | true =>
      cases u with
      | number => trivial
      | _ => cases number
    | false => exact formedU.withCoeff (mul_ne_zero (formedU.coeff_ne_zero number) formed.1)

theorem WellFormed.summands_ne_nil {e : Expr} (formed : e.WellFormed) : e.summands ≠ [] := by
  rcases summands_cases e with single | ⟨c, terms, rfl⟩
  · simp [single]
  · have several := formed.2.2.1.several
    rw [summands_plain]
    exact List.ne_nil_of_length_pos (by rw [List.length_map]; omega)

/-- The terms of a sum of collected terms: those that have not cancelled. -/
theorem summands_ofTerms {terms : List RankedTerm} (collected : Collected terms)
    (proper : (ofTerms terms).isZero = false) :
    (ofTerms terms).summands = (remaining terms).map (·.2) := by
  rcases ofTerms_cases collected with ⟨_, same⟩ | ⟨t, left, same⟩ | ⟨c, nonzero, same, _⟩
  · rw [same] at proper
    cases proper
  · have member := (mem_remaining.mp (left ▸ List.mem_singleton_self t)).1
    rw [same, left, summands_flat (collected.proper t member).flat]
    rfl
  · rw [same, summands_plain, List.map_map]
    refine List.map_congr_left fun t member => ?_
    have formed := (collected.proper t (mem_remaining.mp member).1).formed
    have coeff (k : Rat) : (t.2.withCoeff k).coeff = k := by
      simpa only [unit, withCoeff_withCoeff] using formed.coeff_withCoeff k
    rw [Function.comp_apply, withCoeff_withCoeff, coeff, div_mul_cancel₀ _ nonzero, withCoeff_coeff]

/-- The terms of a plain sum are collected terms. -/
theorem collected_plain {c : Rat} {terms : List Expr} (formed : (sum c terms 1).WellFormed) :
    Collected ((sum c terms 1).summands.map rankTerm) := by
  obtain ⟨_, _, normal, _⟩ := id formed
  have keyed : ∀ t ∈ (sum c terms 1).summands, t.hasTermKey = true := by
    intro t member
    rw [summands_plain] at member
    obtain ⟨u, inside, rfl⟩ := List.mem_map.mp member
    rw [hasTermKey_withCoeff]
    exact normal.keyed u inside
  refine ⟨fun t member => ?_, ?_, fun t member => ?_⟩
  · obtain ⟨u, inside, rfl⟩ := List.mem_map.mp member
    rfl
  · have keys : ((sum c terms 1).summands.map rankTerm).map (·.1.key) = terms.map termKey := by
      rw [summands_plain, List.map_map, List.map_map]
      refine List.map_congr_left fun t _ => ?_
      simp only [Function.comp_apply, rankTerm, termRank_withCoeff, termRank_key]
    rw [keys]
    exact normal.distinct
  · obtain ⟨u, inside, rfl⟩ := List.mem_map.mp member
    exact formed.isTerm_summands inside (keyed u inside)

/-- The number drawn out of the terms of a plain sum is the coefficient that was spread over them. -/
theorem share_plain {c : Rat} {terms : List Expr} (formed : (sum c terms 1).WellFormed)
    (nonzero : ∀ t ∈ terms, t.coeff ≠ 0) {best : RankedTerm} {rest : List RankedTerm}
    (shape : (sum c terms 1).summands.map rankTerm = best :: rest) : share best rest = c := by
  obtain ⟨scaled, _, normal, all⟩ := id formed
  have coeffOf (t : Expr) (member : t ∈ terms) (k : Rat) : (t.withCoeff k).coeff = k :=
    (allWellFormed_iff.mp all t member).coeff_withCoeff k
  have coeffs : (best :: rest).map (fun t => t.2.coeff) = terms.map fun t => t.coeff * c := by
    rw [← shape, summands_plain, List.map_map, List.map_map]
    exact List.map_congr_left fun t member => coeffOf t member _
  have present : terms ≠ [] := by
    rintro rfl
    exact absurd normal.several (by decide)
  have quotients : (terms.map fun t => t.coeff * c).map (· / |c|) = terms.map coeff ∨
      (terms.map fun t => t.coeff * c).map (· / |c|) = (terms.map coeff).map fun k => -k := by
    simp only [List.map_map, Function.comp_def]
    rcases abs_choice c with same | opposite
    · refine .inl (List.map_congr_left fun t _ => ?_)
      rw [same, mul_div_cancel_right₀ _ scaled]
    · refine .inr (List.map_congr_left fun t _ => ?_)
      rw [opposite, div_neg, mul_div_cancel_right₀ _ scaled]
  have magnitude : content (terms.map fun t => t.coeff * c) = |c| := by
    refine content_eq_of_coprime (abs_pos.mpr scaled) (by simpa using present) ?_ ?_ ?_
    · intro k member
      obtain ⟨t, inside, rfl⟩ := List.mem_map.mp member
      exact mul_ne_zero (nonzero t inside) scaled
    · intro k member
      obtain ⟨t, inside, rfl⟩ := List.mem_map.mp member
      rcases abs_choice c with same | opposite
      · rw [same, mul_div_cancel_right₀ _ scaled, normal.integral t inside]
      · rw [opposite, div_neg, mul_div_cancel_right₀ _ scaled, Rat.neg_den, normal.integral t inside]
    · rcases quotients with same | opposite
      · rw [same, normal.coprime]
      · rw [opposite, commonDivisor_neg, normal.coprime]
  -- The leading term has the sign of `c`, since the first term of a normal sum is positive.
  have collected := collected_plain formed
  rw [shape] at collected
  have first := head?_sortTerms_leading collected fun t => t.coeff / c
  have back : ((best :: rest).map fun t => t.2.withCoeff (t.2.coeff / c)) = terms := by
    rw [← shape, summands_plain, List.map_map, List.map_map]
    refine (List.map_congr_left fun t member => ?_).trans (List.map_id _)
    simp only [Function.comp_apply, rankTerm, coeffOf t member, withCoeff_withCoeff, id_eq,
      mul_div_cancel_right₀ _ scaled, withCoeff_coeff]
  rw [back] at first
  have leads := (leading_spec best rest).1
  have coeffLead : ((leading best rest).2.withCoeff ((leading best rest).2.coeff / c)).coeff =
      (leading best rest).2.coeff / c := by
    have formedLead := (collected.proper _ leads).formed
    simpa only [unit, withCoeff_withCoeff] using formedLead.coeff_withCoeff _
  have positive := normal.positive _ first
  rw [coeffLead] at positive
  rw [share, coeffs, magnitude]
  rcases lt_or_gt_of_ne scaled with negative | above
  · rcases div_pos_iff.mp positive with ⟨_, above⟩ | ⟨below, _⟩
    · exact absurd above negative.le.not_gt
    · rw [if_pos below, abs_of_neg negative, neg_neg]
  · have other := ((div_pos_iff_of_pos_right above).mp positive).le.not_gt
    rw [if_neg other, abs_of_pos above]

theorem terms_ne_zero {c : Rat} {terms : List Expr} (formed : (sum c terms 1).WellFormed)
    (nonzero : ∀ t ∈ (sum c terms 1).summands, t.coeff ≠ 0) : ∀ t ∈ terms, t.coeff ≠ 0 := by
  intro t member zero
  have formedT := allWellFormed_iff.mp formed.2.2.2 t member
  rw [summands_plain] at nonzero
  refine nonzero _ (List.mem_map_of_mem member) ?_
  rw [formedT.coeff_withCoeff, zero, zero_mul]

/-- A well-formed expression is what its own terms add up to. -/
theorem ofTerms_summands {e : Expr} (formed : e.WellFormed)
    (nonzero : e.isZero = false → ∀ t ∈ e.summands, t.coeff ≠ 0) :
    ofTerms (e.summands.map rankTerm) = e := by
  have single (single : e.summands = [e]) : ofTerms (e.summands.map rankTerm) = e := by
    cases none : e.isZero with
    | true =>
      cases e with
      | number c =>
        obtain rfl : c = 0 := by simpa [isZero] using none
        rfl
      | _ => cases none
    | false =>
      have kept : e.coeff ≠ 0 := nonzero none e (by rw [single]; exact List.mem_singleton_self e)
      have left : remaining (e.summands.map rankTerm) = [rankTerm e] := by
        simp [single, remaining, rankTerm, kept]
      exact ofTerms_of_remaining_single left
  cases e with
  | sum c terms p =>
    by_cases plain : p = 1
    · subst plain
      have proper := terms_ne_zero formed (nonzero rfl)
      have kept : remaining ((sum c terms 1).summands.map rankTerm) =
          (sum c terms 1).summands.map rankTerm := by
        refine List.filter_eq_self.mpr fun t member => ?_
        obtain ⟨u, inside, rfl⟩ := List.mem_map.mp member
        exact decide_eq_true (nonzero rfl u inside)
      have several := formed.2.2.1.several
      rcases terms with _ | ⟨t, _ | ⟨u, rest⟩⟩ <;> try simp at several
      have shape : (sum c (t :: u :: rest) 1).summands.map rankTerm =
          rankTerm (t.withCoeff (t.coeff * c)) :: rankTerm (u.withCoeff (u.coeff * c)) ::
            (rest.map fun t => t.withCoeff (t.coeff * c)).map rankTerm := by
        rw [summands_plain]
        rfl
      rw [ofTerms_of_remaining_several (kept.trans shape), share_plain formed proper shape, ← shape,
        summands_plain, List.map_map, List.map_map]
      congr 1
      refine (List.map_congr_left fun v member => ?_).trans (List.map_id _)
      have formedV := allWellFormed_iff.mp formed.2.2.2 v member
      simp only [Function.comp_apply, rankTerm, formedV.coeff_withCoeff, withCoeff_withCoeff,
        mul_div_cancel_right₀ _ formed.1, withCoeff_coeff, id_eq]
    · exact single (by rw [summands, if_neg plain])
  | _ => exact single rfl

/-- Terms that look alike have the same number drawn out of them. -/
theorem share_of_perm {t u : Expr} {ts us : List Expr}
    (looks : ((t :: ts).map appearance).Perm ((u :: us).map appearance))
    (collected : Collected ((t :: ts).map rankTerm)) :
    share (rankTerm t) (ts.map rankTerm) = share (rankTerm u) (us.map rankTerm) := by
  have contents : content (((t :: ts).map rankTerm).map fun v => v.2.coeff) =
      content (((u :: us).map rankTerm).map fun v => v.2.coeff) := by
    refine content_perm ?_
    simpa only [List.map_map, Function.comp_def, appearance, rankTerm] using
      looks.map fun look => look.2.1
  obtain ⟨first, least⟩ := leading_spec (rankTerm t) (ts.map rankTerm)
  obtain ⟨firstU, leastU⟩ := leading_spec (rankTerm u) (us.map rankTerm)
  rw [← List.map_cons] at first least firstU leastU
  obtain ⟨v, insideV, leadsV⟩ := List.mem_map.mp first
  obtain ⟨w, insideW, leadsW⟩ := List.mem_map.mp firstU
  -- The leading term of the second list has a partner in the first, which leads there as well.
  obtain ⟨v', insideV', sameV'⟩ := List.mem_map.mp (looks.mem_iff.mpr (List.mem_map_of_mem insideW))
  obtain ⟨w', insideW', sameW'⟩ := List.mem_map.mp (looks.mem_iff.mp (List.mem_map_of_mem insideV))
  simp only [appearance, Prod.mk.injEq] at sameV' sameW'
  have before := least (rankTerm v') (List.mem_map_of_mem insideV')
  have after := leastU (rankTerm w') (List.mem_map_of_mem insideW')
  rw [← leadsV] at before
  rw [← leadsW] at after
  simp only [rankTerm] at before after
  rw [sameW'.1, ← sameV'.1] at after
  have same : rankTerm v = rankTerm v' := List.inj_on_of_nodup_map collected.distinct
    (List.mem_map_of_mem insideV) (List.mem_map_of_mem insideV')
    (TermRank.key_eq_of_le_of_le before after)
  have coeffs : (leading (rankTerm t) (ts.map rankTerm)).2.coeff =
      (leading (rankTerm u) (us.map rankTerm)).2.coeff := by
    rw [← leadsV, ← leadsW, same]
    exact sameV'.2.1
  rw [share, share, ← List.map_cons, ← List.map_cons, coeffs, contents]

/-- Similar terms add up to similar sums. -/
theorem Similars.ofTerms {ts us : List Expr} (similars : Similars ts us)
    (collected : Collected (ts.map rankTerm)) :
    Similar (ofTerms (ts.map rankTerm)) (ofTerms (us.map rankTerm)) := by
  have left (es : List Expr) : remaining (es.map rankTerm) =
      (es.filter fun t => decide (t.coeff ≠ 0)).map rankTerm := by
    rw [remaining, List.filter_map]
    rfl
  have kept := similars.filter (fun t => decide (t.coeff ≠ 0))
    fun a b similar => by rw [similar.coeff]
  have collectedKept : Collected (remaining (ts.map rankTerm)) :=
    collected.sublist List.filter_sublist
  rw [left] at collectedKept
  have leftT := left ts
  have leftU := left us
  generalize (ts.filter fun t => decide (t.coeff ≠ 0)) = vs at kept collectedKept leftT
  generalize (us.filter fun t => decide (t.coeff ≠ 0)) = ws at kept leftU
  have count := kept.length_eq
  rcases vs with _ | ⟨v, _ | ⟨v', vs⟩⟩ <;> rcases ws with _ | ⟨w, _ | ⟨w', ws⟩⟩ <;>
    try simp at count
  · rw [ofTerms_of_remaining_nil leftT, ofTerms_of_remaining_nil leftU]
    exact .refl _
  · rw [ofTerms_of_remaining_single leftT, ofTerms_of_remaining_single leftU]
    exact kept.single
  · have drawn := share_of_perm (kept.images appearance fun _ _ similar => similar.appearance)
      collectedKept
    rw [ofTerms_of_remaining_several leftT, ofTerms_of_remaining_several leftU]
    simp only [List.map_cons] at drawn
    rw [← drawn]
    generalize share (rankTerm v) (rankTerm v' :: vs.map rankTerm) = k
    have divided := kept.map (fun t => t.withCoeff (t.coeff / k))
      fun a b similar => by
        rw [similar.coeff]
        exact similar.withCoeff _
    have keys : ((v :: v' :: vs).map fun t => t.withCoeff (t.coeff / k)).map termKey =
        ((v :: v' :: vs).map rankTerm).map (·.1.key) := by
      rw [List.map_map, List.map_map]
      refine List.map_congr_left fun t _ => ?_
      simp only [Function.comp_apply, termKey_withCoeff, rankTerm, termRank_key]
    have sums := divided.sum (keys ▸ collectedKept.distinct) k 1
    simpa only [List.map_cons, List.map_map, Function.comp_def, rankTerm] using sums

end ExactAlgebra.Expr
