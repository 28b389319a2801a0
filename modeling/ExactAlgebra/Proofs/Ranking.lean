import ExactAlgebra.Arithmetic.Sum
import Mathlib

/-! Terms and factors are written in the order of their ranks. Both orders are total, and ranks that
stand before each other agree in all that decides the order, so a list in which no two keys are
equal has one sorted form, however its items came in. Such a list can also be read off the sum of the
values that its keys have. -/
namespace ExactAlgebra

theorem TermRank.le_total (a b : TermRank) : (TermRank.le a b || TermRank.le b a) = true := by
  unfold TermRank.le
  by_cases kind : a.isNumber = b.isNumber
  · by_cases degree : a.degree = b.degree
    · simpa [kind, degree] using String.le_total a.key b.key
    · rcases lt_or_gt_of_ne degree with lower | higher
      · simp [kind, degree, Ne.symm degree, lower]
      · simp [kind, degree, Ne.symm degree, higher]
  · cases ha : a.isNumber <;> cases hb : b.isNumber <;> simp_all

theorem TermRank.le_trans (a b c : TermRank) (first : TermRank.le a b = true)
    (second : TermRank.le b c = true) : TermRank.le a c = true := by
  unfold TermRank.le at *
  by_cases kind : a.isNumber = b.isNumber
  · by_cases kind' : b.isNumber = c.isNumber
    · simp only [kind, kind', ne_eq, not_true_eq_false, if_false, ite_not] at *
      by_cases low : a.degree = b.degree
      · by_cases high : b.degree = c.degree
        · simp only [low, high, if_true, decide_eq_true_eq] at *
          exact String.le_trans first second
        · simp_all
      · by_cases high : b.degree = c.degree
        · simp_all
        · simp only [low, high, if_false, decide_eq_true_eq] at first second
          have lower := lt_trans second first
          simp [lower, lower.ne']
    · simp_all
  · by_cases kind' : b.isNumber = c.isNumber
    · simp_all
    · cases ha : a.isNumber <;> cases hb : b.isNumber <;> cases hc : c.isNumber <;> simp_all

/-- Ranks that stand before each other have the same key. -/
theorem TermRank.key_eq_of_le_of_le {a b : TermRank} (first : TermRank.le a b = true)
    (second : TermRank.le b a = true) : a.key = b.key := by
  unfold TermRank.le at *
  by_cases kind : a.isNumber = b.isNumber
  · by_cases degree : a.degree = b.degree
    · simp only [kind, degree, ne_eq, not_true_eq_false, if_false, decide_eq_true_eq] at *
      exact String.le_antisymm first second
    · simp only [kind, degree, Ne.symm degree, ne_eq, not_true_eq_false, not_false_eq_true,
        if_true, if_false, decide_eq_true_eq] at first second
      exact absurd first (lt_asymm second)
  · cases ha : a.isNumber <;> cases hb : b.isNumber <;> simp_all

theorem FactorRank.le_total (a b : FactorRank) :
    (FactorRank.le a b || FactorRank.le b a) = true := by
  unfold FactorRank.le
  by_cases rank : a.rank = b.rank
  · simpa [rank] using String.le_total a.key b.key
  · rcases lt_or_gt_of_ne rank with lower | higher
    · simp [rank, Ne.symm rank, lower]
    · simp [rank, Ne.symm rank, higher]

theorem FactorRank.le_trans (a b c : FactorRank) (first : FactorRank.le a b = true)
    (second : FactorRank.le b c = true) : FactorRank.le a c = true := by
  unfold FactorRank.le at *
  by_cases low : a.rank = b.rank
  · by_cases high : b.rank = c.rank
    · simp only [low, high, ne_eq, not_true_eq_false, if_false, decide_eq_true_eq] at *
      exact String.le_trans first second
    · simp_all
  · by_cases high : b.rank = c.rank
    · simp_all
    · simp only [low, high, ne_eq, not_false_eq_true, if_true, decide_eq_true_eq] at first second
      have lower := lt_trans first second
      simp [lower, lower.ne]

theorem FactorRank.key_eq_of_le_of_le {a b : FactorRank} (first : FactorRank.le a b = true)
    (second : FactorRank.le b a = true) : a.key = b.key := by
  unfold FactorRank.le at *
  by_cases rank : a.rank = b.rank
  · simp only [rank, ne_eq, not_true_eq_false, if_false, decide_eq_true_eq] at *
    exact String.le_antisymm first second
  · simp only [rank, Ne.symm rank, ne_eq, not_false_eq_true, if_true, decide_eq_true_eq] at *
    omega

section Sorting

variable {ρ α : Type} {le : ρ → ρ → Bool}

theorem insertByRank_perm (item : ρ × α) (items : List (ρ × α)) :
    (insertByRank le item items).Perm (item :: items) := by
  induction items with
  | nil => exact .refl _
  | cons next rest ih =>
    rw [insertByRank]
    split
    · exact .refl _
    · exact (ih.cons next).trans (.swap item next rest)

theorem foldr_insertByRank_perm (items : List (ρ × α)) :
    (items.foldr (insertByRank le) []).Perm items := by
  induction items with
  | nil => exact .refl _
  | cons item items ih => exact (insertByRank_perm item _).trans (ih.cons item)

theorem sortByRank_perm (items : List (ρ × α)) :
    (sortByRank le items).Perm (items.map (·.2)) :=
  (foldr_insertByRank_perm items).map _

theorem mem_sortByRank {items : List (ρ × α)} {x : α} :
    x ∈ sortByRank le items ↔ x ∈ items.map (·.2) :=
  (sortByRank_perm items).mem_iff

theorem sortByRank_map {β : Type} (f : α → β) (items : List (ρ × α)) :
    sortByRank le (items.map fun item => (item.1, f item.2)) = (sortByRank le items).map f := by
  have inserted (item : ρ × α) (items : List (ρ × α)) :
      insertByRank le (item.1, f item.2) (items.map fun item => (item.1, f item.2)) =
        (insertByRank le item items).map fun item => (item.1, f item.2) := by
    induction items with
    | nil => rfl
    | cons next rest ih =>
      rw [List.map_cons, insertByRank, insertByRank]
      split
      · rfl
      · rw [ih, List.map_cons]
  have sorted : (items.map fun item => (item.1, f item.2)).foldr (insertByRank le) [] =
      (items.foldr (insertByRank le) []).map fun item => (item.1, f item.2) := by
    induction items with
    | nil => rfl
    | cons item items ih => rw [List.map_cons, List.foldr_cons, ih, inserted, List.foldr_cons]
  rw [sortByRank, sorted, sortByRank, List.map_map, List.map_map]
  rfl

variable (trans : ∀ a b c, le a b = true → le b c = true → le a c = true)
  (total : ∀ a b, (le a b || le b a) = true)

include trans total in
theorem pairwise_insertByRank {items : List (ρ × α)}
    (sorted : items.Pairwise fun a b => le a.1 b.1 = true) (item : ρ × α) :
    (insertByRank le item items).Pairwise fun a b => le a.1 b.1 = true := by
  induction items with
  | nil => exact List.pairwise_singleton _ _
  | cons next rest ih =>
    obtain ⟨least, others⟩ := List.pairwise_cons.mp sorted
    rw [insertByRank]
    split
    next before =>
      refine List.pairwise_cons.mpr ⟨fun other member => ?_, sorted⟩
      rcases List.mem_cons.mp member with rfl | later
      · exact before
      · exact trans _ _ _ before (least other later)
    next after =>
      refine List.pairwise_cons.mpr ⟨fun other member => ?_, ih others⟩
      rcases List.mem_cons.mp ((insertByRank_perm item rest).mem_iff.mp member) with rfl | later
      · simpa [after] using total other.1 next.1
      · exact least other later

include trans total in
theorem pairwise_foldr_insertByRank (items : List (ρ × α)) :
    (items.foldr (insertByRank le) []).Pairwise fun a b => le a.1 b.1 = true := by
  induction items with
  | nil => exact .nil
  | cons item items ih => exact pairwise_insertByRank trans total ih item

include trans total in
/-- The order in which items came in is lost by sorting when items of one rank are equal. -/
theorem sortByRank_eq_of_perm {items others : List (ρ × α)} (perm : items.Perm others)
    (antisymm : ∀ a ∈ items, ∀ b ∈ items, le a.1 b.1 = true → le b.1 a.1 = true → a = b) :
    sortByRank le items = sortByRank le others := by
  unfold sortByRank
  congr 1
  have permItems := @foldr_insertByRank_perm ρ α le items
  have permOthers := @foldr_insertByRank_perm ρ α le others
  refine List.Perm.eq_of_pairwise ?_ (pairwise_foldr_insertByRank trans total items)
    (pairwise_foldr_insertByRank trans total others) ?_
  · intro a b ha hb
    exact antisymm a (permItems.mem_iff.mp ha) b (perm.mem_iff.mpr (permOthers.mem_iff.mp hb))
  · exact permItems.trans (perm.trans permOthers.symm)

include trans total in
/-- The item that stands before all others comes first. -/
theorem head?_sortByRank {items : List (ρ × α)} {first : ρ × α} (member : first ∈ items)
    (least : ∀ item ∈ items, le first.1 item.1 = true)
    (antisymm : ∀ a ∈ items, ∀ b ∈ items, le a.1 b.1 = true → le b.1 a.1 = true → a = b) :
    (sortByRank le items).head? = some first.2 := by
  unfold sortByRank
  have sorted := pairwise_foldr_insertByRank trans total items
  have perm := @foldr_insertByRank_perm ρ α le items
  cases shape : items.foldr (insertByRank le) [] with
  | nil =>
    rw [shape] at perm
    exact absurd (perm.mem_iff.mpr member) List.not_mem_nil
  | cons head tail =>
    rw [shape] at perm sorted
    have headMember : head ∈ items := perm.mem_iff.mp List.mem_cons_self
    have before : le head.1 first.1 = true := by
      rcases List.mem_cons.mp (perm.mem_iff.mpr member) with rfl | later
      · exact least _ headMember
      · exact (List.pairwise_cons.mp sorted).1 _ later
    have same := antisymm head headMember first member before (least head headMember)
    simp [same]

end Sorting

section Singles

variable {κ M : Type} [AddCommMonoid M] {items others : List (κ × M)}

theorem sum_single_of_notMem {k : κ} (absent : k ∉ items.map Prod.fst) :
    (items.map fun item => Finsupp.single item.1 item.2).sum k = 0 := by
  induction items with
  | nil => rfl
  | cons item items ih =>
    simp only [List.map_cons, List.mem_cons, not_or] at absent
    rw [List.map_cons, List.sum_cons, Finsupp.add_apply, ih absent.2, add_zero,
      Finsupp.single_eq_of_ne absent.1]

theorem sum_single_of_mem (distinct : (items.map Prod.fst).Nodup) {item : κ × M}
    (member : item ∈ items) :
    (items.map fun item => Finsupp.single item.1 item.2).sum item.1 = item.2 := by
  induction items with
  | nil => cases member
  | cons other items ih =>
    obtain ⟨fresh, later⟩ := List.nodup_cons.mp distinct
    rw [List.map_cons, List.sum_cons, Finsupp.add_apply]
    rcases List.mem_cons.mp member with rfl | inside
    · rw [sum_single_of_notMem fresh, Finsupp.single_eq_same, add_zero]
    · have apart : item.1 ≠ other.1 := fun same => fresh (List.mem_map.mpr ⟨item, inside, same⟩)
      rw [ih later inside, Finsupp.single_eq_of_ne apart, zero_add]

/-- Items with keys of their own and nonzero values can be read off the sum of their values. -/
theorem perm_of_sum_single_eq (distinct : (items.map Prod.fst).Nodup)
    (distinct' : (others.map Prod.fst).Nodup) (nonzero : ∀ item ∈ items, item.2 ≠ 0)
    (nonzero' : ∀ item ∈ others, item.2 ≠ 0)
    (same : (items.map fun item => Finsupp.single item.1 item.2).sum =
      (others.map fun item => Finsupp.single item.1 item.2).sum) : items.Perm others := by
  have subset {items others : List (κ × M)} (distinct : (items.map Prod.fst).Nodup)
      (distinct' : (others.map Prod.fst).Nodup) (nonzero : ∀ item ∈ items, item.2 ≠ 0)
      (same : (items.map fun item => Finsupp.single item.1 item.2).sum =
        (others.map fun item => Finsupp.single item.1 item.2).sum) {item : κ × M}
      (member : item ∈ items) : item ∈ others := by
    have here := sum_single_of_mem distinct member
    have listed : item.1 ∈ others.map Prod.fst := by
      by_contra absent
      rw [same, sum_single_of_notMem absent] at here
      exact nonzero item member here.symm
    obtain ⟨other, there, keys⟩ := List.mem_map.mp listed
    have values := sum_single_of_mem distinct' there
    rw [keys, ← same, here] at values
    exact Prod.ext keys values.symm ▸ there
  exact (List.perm_ext_iff_of_nodup distinct.of_map distinct'.of_map).mpr fun item =>
    ⟨subset distinct distinct' nonzero same, subset distinct' distinct nonzero' same.symm⟩

end Singles

namespace Expr

/-- The leading term is one of the terms, and it stands before all of them. -/
theorem leading_spec (best : RankedTerm) (rest : List RankedTerm) :
    leading best rest ∈ best :: rest ∧
      ∀ t ∈ best :: rest, TermRank.le (leading best rest).1 t.1 = true := by
  induction rest generalizing best with
  | nil => simpa [leading] using TermRank.le_total best.1 best.1
  | cons t rest ih =>
    obtain ⟨member, least⟩ := ih (if TermRank.le best.1 t.1 then best else t)
    have chosen : TermRank.le (if TermRank.le best.1 t.1 then best else t).1 best.1 = true ∧
        TermRank.le (if TermRank.le best.1 t.1 then best else t).1 t.1 = true := by
      have reflBest := TermRank.le_total best.1 best.1
      have reflNext := TermRank.le_total t.1 t.1
      have either := TermRank.le_total best.1 t.1
      by_cases before : TermRank.le best.1 t.1 = true <;> simp_all
    have first := least _ List.mem_cons_self
    simp only [leading]
    constructor
    · rcases List.mem_cons.mp member with same | later
      · rw [same]
        split <;> simp
      · exact List.mem_cons_of_mem _ (List.mem_cons_of_mem _ later)
    · intro u inside
      rcases List.mem_cons.mp inside with rfl | inside
      · exact TermRank.le_trans _ _ _ first chosen.1
      · rcases List.mem_cons.mp inside with rfl | inside
        · exact TermRank.le_trans _ _ _ first chosen.2
        · exact least u (List.mem_cons_of_mem _ inside)

theorem sortTerms_perm (terms : List Expr) : (sortTerms terms).Perm terms := by
  have sorted := @sortByRank_perm TermRank Expr TermRank.le (terms.map fun t => (t.termRank t.face, t))
  simpa only [sortTerms, List.map_map, Function.comp_def, List.map_id'] using sorted

theorem sortFactors_perm (factors : List Expr) : (sortFactors factors).Perm factors := by
  have sorted := @sortByRank_perm FactorRank Expr FactorRank.le (factors.map fun f => (f.factorRank f.face, f))
  simpa only [sortFactors, List.map_map, Function.comp_def, List.map_id'] using sorted

end Expr
end ExactAlgebra
