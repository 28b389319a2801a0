import ExactAlgebra.Algebra.Fraction
import ExactAlgebra.Proofs.Agreement
import ExactAlgebra.Proofs.Closure
import Mathlib

/-! Which names occur after expansion. Expanding and putting over a common denominator bring in no
names but those of the arithmetic, so an unknown that does not occur in an expression does not turn up
later. -/
namespace ExactAlgebra.Expr
open Engine

variable {context : Context} {property : String → Prop} {e : Expr}

theorem contains_eq_false_iff {x : String} : e.contains x = false ↔ NamesHave (· ≠ x) e := by
  have any {es : List Expr} (each : ∀ e ∈ es, e.contains x = false ↔ NamesHave (· ≠ x) e) :
      anyContains x es = false ↔ ∀ e ∈ es, NamesHave (· ≠ x) e := by
    rw [anyContains_eq_false]
    exact forall₂_congr each
  induction e using Expr.induction with
  | number c => exact ⟨fun _ => .number c, fun _ => rfl⟩
  | symbol c name p => simp [contains, NamesHave, names]
  | call c name args p ih => exact (any ih).trans namesAll_have.symm
  | sum c terms p ih => exact (any ih).trans NamesHave.sum.symm
  | product c factors ih => exact (any ih).trans NamesHave.product.symm
  | exponential c base exponent ihBase ihExponent =>
    exact (Bool.or_eq_false_iff.trans (and_congr ihBase ihExponent)).trans NamesHave.exponential.symm
  | foreign => simp [contains, NamesHave, names]

/-- Arithmetic brings in no unknown. -/
theorem admits_ne {x : String} (unknown : isVariableName x = true) : Admits (· ≠ x) where
  imaginary := by
    rintro rfl
    exact absurd unknown (by decide)
  minusOne := by
    rintro rfl
    exact absurd unknown (by decide)
  digits n := by
    rintro rfl
    rw [isVariableName, Text.isIntegerText_toString, Bool.not_true, Bool.and_false] at unknown
    cases unknown

theorem NamesHave.spreadTerms (holds : NamesHave property e) : ∀ t ∈ e.spreadTerms, NamesHave property t := by
  intro t member
  cases e with
  | sum c terms p =>
    rw [Expr.spreadTerms] at member
    split at member
    · obtain ⟨u, inside, rfl⟩ := List.mem_map.mp member
      exact (NamesHave.sum.mp holds u ((sortTerms_perm terms).mem_iff.mp inside)).withCoeff _
    · obtain rfl := List.mem_singleton.mp member
      exact holds
  | _ =>
    obtain rfl := List.mem_singleton.mp member
    exact holds

theorem names_keptByExpansion (admits : Admits property) : KeptByExpansion (NamesHave property) :=
  admits.keptByPowers.keptByExpansion fun _ each => namesAll_have.mpr each

theorem names_splitFraction (admits : Admits property) (holds : NamesHave property e)
    {parts : Expr × Expr} (returned : e.splitFraction = .ok parts) :
    NamesHave property parts.1 ∧ NamesHave property parts.2 := by
  unfold splitFraction at returned
  split at returned
  next c factors =>
    have each := NamesHave.product.mp holds
    obtain ⟨numerator, above, returned⟩ := Outcome.bind_ok returned
    obtain ⟨below, raised, returned⟩ := Outcome.bind_ok returned
    obtain ⟨denominator, multiplied, returned⟩ := Outcome.bind_ok returned
    cases returned
    refine ⟨.mulAll admits (.number c) (fun f member => each f (List.mem_filter.mp member).1) above,
      .mulAll admits (.number 1) (fun g member => ?_) multiplied⟩
    obtain ⟨f, inside, raised⟩ := Outcome.mem_of_mapM raised member
    exact (each f (List.mem_filter.mp inside).1).powRat admits raised
  next =>
    split at returned
    · obtain ⟨power, raised, returned⟩ := Outcome.bind_ok returned
      cases returned
      exact ⟨.number _, (holds.withCoeff 1).powRat admits raised⟩
    · cases returned
      exact ⟨holds, .number 1⟩

theorem mem_insert {κ α : Type} [BEq κ] {key : κ} {value : α} {table : List (κ × α)} {entry : κ × α}
    (member : entry ∈ Table.insert key value table) : entry.2 = value ∨ entry ∈ table := by
  induction table with
  | nil =>
    obtain rfl := List.mem_singleton.mp member
    exact .inl rfl
  | cons first rest ih =>
    rw [Table.insert] at member
    split at member
    · rcases List.mem_cons.mp member with rfl | later
      · exact .inl rfl
      · exact .inr (List.mem_cons_of_mem _ later)
    · rcases List.mem_cons.mp member with rfl | later
      · exact .inr List.mem_cons_self
      · exact (ih later).imp_right (List.mem_cons_of_mem _)

/-- Common factors are factors of the parts. -/
theorem mem_foldl_raiseCommon {factors : List Expr} {common : List (String × Expr)} {entry : String × Expr}
    (member : entry ∈ factors.foldl raiseCommon common) : entry.2 ∈ factors ∨ entry ∈ common := by
  have raised {common : List (String × Expr)} {f : Expr} (member : entry ∈ raiseCommon common f) :
      entry.2 = f ∨ entry ∈ common := by
    unfold raiseCommon at member
    dsimp only at member
    split at member
    · split at member
      · exact mem_insert member
      · exact .inr member
    · exact mem_insert member
  induction factors generalizing common with
  | nil => exact .inr member
  | cons f rest ih =>
    rcases ih member with later | here
    · exact .inl (List.mem_cons_of_mem _ later)
    · rcases raised here with same | before
      · exact .inl (same ▸ List.mem_cons_self)
      · exact .inr before

theorem names_together (admits : Admits property) (holds : NamesHave property e) :
    Returns context e.together fun parts => NamesHave property parts.1 ∧ NamesHave property parts.2 := by
  unfold together
  refine Meets.bind _ ((names_keptByExpansion admits).expand holds) fun expanded holdsExpanded => ?_
  refine Meets.bind _ (Meets.mapM fun t member => Returns.lift fun parts returned =>
    names_splitFraction admits (holdsExpanded.spreadTerms t member) returned) fun parts ⟨split, _⟩ => ?_
  have each : ∀ part ∈ parts, NamesHave property part.1 ∧ NamesHave property part.2 := by
    intro part member
    obtain ⟨t, -, holds⟩ := split part member
    exact holds
  have below : ∀ f ∈ parts.flatMap (fun part => part.2.factors), NamesHave property f := by
    intro f member
    obtain ⟨part, inside, factor⟩ := List.mem_flatMap.mp member
    exact admits.keptByPowers.factors (each part inside).2 f factor
  dsimp only
  split
  · exact Meets.throw trivial
  refine Meets.bind (NamesHave property) (Returns.lift fun denominator returned => ?_)
    fun denominator holdsBelow => ?_
  · refine .mulAll admits (.number 1) (fun f member => ?_) returned
    obtain ⟨g, inside, rfl⟩ := List.mem_map.mp member
    exact below g.2 ((mem_foldl_raiseCommon inside).resolve_right List.not_mem_nil)
  refine Meets.bind (NamesHave property) (Meets.foldlM (.number 0) fun total holdsTotal part member => ?_)
    fun numerator holdsAbove => Meets.pure ⟨holdsAbove, holdsBelow⟩
  refine Meets.bind _ (Meets.anyway _) fun _ _ => ?_
  refine Meets.bind (NamesHave property) (Returns.lift fun quotient divided =>
    holdsBelow.div admits (each part member).2 divided) fun quotient holdsQuotient => ?_
  refine Meets.bind (NamesHave property) (Returns.lift fun scaled multiplied =>
    (each part member).1.mul admits holdsQuotient multiplied) fun scaled holdsScaled => ?_
  refine Meets.bind _ ((names_keptByExpansion admits).expand holdsScaled) fun expanded holdsExpanded => ?_
  exact Returns.lift fun next added => holdsTotal.add admits holdsExpanded added

end ExactAlgebra.Expr
