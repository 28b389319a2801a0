import ExactAlgebra.Proofs.Addition
import ExactAlgebra.Proofs.Radical
import Mathlib

/-! Products and powers keep the normal form. The four functions call each other, so what they keep
is one statement for each amount of work; the next amount follows from the one before. -/
namespace ExactAlgebra.Expr

/-- Factors merged so far, each beside its key, no two of them alike. -/
structure Merged (factors : List (String × Expr)) : Prop where
  keyed : ∀ f ∈ factors, f.1 = f.2.baseKey ∧ f.2.hasBaseKey = true
  distinct : (factors.map (·.1)).Nodup
  proper : ∀ f ∈ factors, f.2.WellFormed ∧ IsFactor f.2

theorem removeFactor_none {key : String} {factors : List (String × Expr)}
    (absent : removeFactor key factors = none) : key ∉ factors.map (·.1) := by
  induction factors with
  | nil => simp
  | cons f rest ih =>
    simp only [removeFactor] at absent
    split at absent
    · cases absent
    next other =>
      have later := ih (by simpa using absent)
      simp only [List.map_cons, List.mem_cons, not_or]
      exact ⟨fun same => other (by simp [same]), later⟩

/-- Taking a factor out leaves the others in order. -/
theorem removeFactor_some {key : String} {factors others : List (String × Expr)} {g : Expr}
    (found : removeFactor key factors = some (g, others)) :
    factors.Perm ((key, g) :: others) ∧ others.Sublist factors := by
  induction factors generalizing others with
  | nil => simp [removeFactor] at found
  | cons f rest ih =>
    obtain ⟨k, f⟩ := f
    simp only [removeFactor] at found
    split at found
    next same =>
      obtain ⟨rfl, rfl⟩ := Prod.mk.inj (Option.some.inj found)
      obtain rfl : k = key := by simpa using same
      exact ⟨.refl _, List.sublist_cons_self _ _⟩
    next =>
      obtain ⟨⟨h, left⟩, inside, same⟩ := Option.map_eq_some_iff.mp found
      obtain ⟨rfl, rfl⟩ := Prod.mk.inj same
      obtain ⟨perm, sub⟩ := ih inside
      exact ⟨(perm.cons _).trans (List.Perm.swap _ _ _), sub.cons_cons _⟩

theorem Merged.sublist {factors kept : List (String × Expr)} (merged : Merged factors)
    (sub : kept.Sublist factors) : Merged kept where
  keyed f member := merged.keyed f (sub.subset member)
  distinct := merged.distinct.sublist (sub.map _)
  proper f member := merged.proper f (sub.subset member)

theorem Merged.append {factors : List (String × Expr)} (merged : Merged factors) {f : Expr}
    (fresh : f.baseKey ∉ factors.map (·.1)) (keyed : f.hasBaseKey = true)
    (proper : f.WellFormed ∧ IsFactor f) : Merged (factors ++ [(f.baseKey, f)]) where
  keyed := by
    intro g member
    rcases List.mem_append.mp member with old | new
    · exact merged.keyed g old
    · obtain rfl := List.mem_singleton.mp new
      exact ⟨rfl, keyed⟩
  distinct := by
    rw [List.map_append]
    refine List.nodup_append.mpr ⟨merged.distinct, List.nodup_singleton _, ?_⟩
    rintro a inside b last rfl
    obtain rfl : a = f.baseKey := List.mem_singleton.mp last
    exact fresh inside
  proper := by
    intro g member
    rcases List.mem_append.mp member with old | new
    · exact merged.proper g old
    · obtain rfl := List.mem_singleton.mp new
      exact proper

theorem WellFormed.isFactor_unit {e : Expr} (formed : e.WellFormed) (number : e.isNumber = false)
    (product : e.isProduct = false) : e.unit.WellFormed ∧ IsFactor e.unit :=
  ⟨formed.unit, formed.coeff_withCoeff 1, by rw [Expr.unit, isNumber_withCoeff, number],
    by rw [Expr.unit, isProduct_withCoeff, product]⟩

theorem WellFormed.factors {e : Expr} (formed : e.WellFormed) :
    ∀ f ∈ e.factors, f.WellFormed ∧ IsFactor f := by
  intro f member
  cases e with
  | number => cases member
  | foreign => exact formed.elim
  | product c factors =>
    obtain ⟨_, normal, all⟩ := formed
    have inside : f ∈ factors := by
      simpa [Expr.factors, sortFactors, mem_sortByRank] using member
    exact ⟨allWellFormed_iff.mp all f inside, normal.proper f inside⟩
  | _ =>
    obtain rfl := List.mem_singleton.mp member
    exact formed.isFactor_unit rfl rfl

theorem WellFormed.mergedFactors {e : Expr} (formed : e.WellFormed) :
    ∀ f ∈ mergedFactors e, f.WellFormed ∧ IsFactor f := by
  intro f member
  cases e with
  | number => cases member
  | foreign => exact formed.elim
  | product c factors =>
    obtain ⟨_, normal, all⟩ := formed
    exact ⟨allWellFormed_iff.mp all f member, normal.proper f member⟩
  | _ =>
    obtain rfl := List.mem_singleton.mp member
    exact formed.isFactor_unit rfl rfl

theorem WellFormed.baseOf {f : Expr} (formed : f.WellFormed) : (baseOf f).WellFormed := by
  cases f with
  | symbol c name p =>
    simp only [Expr.baseOf]
    split
    · trivial
    next other => exact formed.stem (by simpa [isIntegerBase] using other)
  | exponential c base exponent => exact formed.2.2.1
  | _ => exact formed.stem rfl

theorem WellFormed.exponentOf {f : Expr} (formed : f.WellFormed) :
    (exponentOf f).WellFormed := by
  cases f with
  | exponential c base exponent => exact formed.2.2.2
  | _ => trivial

/-- Factors with keys of their own make a product, whatever the coefficient. -/
theorem Merged.ofFactors {factors : List (String × Expr)} (merged : Merged factors) (c : Rat) :
    (ofFactors (factors.map (·.2)) c).WellFormed := by
  have proper : ∀ f ∈ factors.map (·.2), f.WellFormed ∧ IsFactor f := by
    intro f member
    obtain ⟨g, inside, rfl⟩ := List.mem_map.mp member
    exact merged.proper g inside
  unfold Expr.ofFactors
  split
  · trivial
  next nonzero =>
    split
    · trivial
    next f shape =>
      rw [shape] at proper
      exact (proper f List.mem_cons_self).1.withCoeff nonzero
    next none single =>
      refine ⟨nonzero, ⟨?_, ?_, ?_, fun f member => (proper f member).2⟩,
        allWellFormed_iff.mpr fun f member => (proper f member).1⟩
      · generalize factors.map (·.2) = fs at none single
        match fs with
        | [] => exact absurd rfl none
        | [f] => exact absurd rfl (single f)
        | f :: g :: rest => simp
      · intro f member
        obtain ⟨g, inside, rfl⟩ := List.mem_map.mp member
        exact (merged.keyed g inside).2
      · have keys : (factors.map (·.2)).map baseKey = factors.map (·.1) := by
          rw [List.map_map]
          exact List.map_congr_left fun f member => (merged.keyed f member).1.symm
        rw [keys]
        exact merged.distinct

theorem powerOfI_wellFormed (n : Int) : (powerOfI n).WellFormed := by
  have unit (c : Rat) (nonzero : c ≠ 0) : (symbol c "i" 1).WellFormed :=
    ⟨nonzero, one_ne_zero, .inl (by decide), by decide, fun _ _ => rfl⟩
  unfold powerOfI
  split
  · trivial
  · exact unit 1 one_ne_zero
  · trivial
  · exact unit (-1) (by decide)

theorem enough_for_one (a b : Expr) : ∃ n, workLimit a b = n + 2 := by
  have large : 16 * 2 * 2 ≤ workLimit a b := by
    unfold workLimit
    exact Nat.mul_le_mul (Nat.mul_le_mul_left 16 (by omega)) (by omega)
  exact ⟨workLimit a b - 2, by omega⟩

/-- Nothing is left of a product with zero. -/
theorem mul_of_isZero {a b : Expr} (vanishes : (a.isZero || b.isZero) = true) : mul a b = .ok zero := by
  obtain ⟨n, limit⟩ := enough_for_one a b
  rw [mul, limit]
  unfold mulWithin
  rw [vanishes]
  rfl

structure KeepsForm (n : Nat) : Prop where
  mul : ∀ {a b r : Expr}, a.WellFormed → b.WellFormed → mulWithin n a b = .ok r → r.WellFormed
  merge : ∀ {pending : List Expr} {factors merged : List (String × Expr)} {c d : Rat},
    (∀ f ∈ pending, f.WellFormed ∧ IsFactor f) → Merged factors →
      mergeWithin n pending factors c = .ok (merged, d) → Merged merged
  powRat : ∀ {a r : Expr} {p : Rat}, a.WellFormed → powRatWithin n a p = .ok r → r.WellFormed
  pow : ∀ {a b r : Expr}, a.WellFormed → b.WellFormed → powWithin n a b = .ok r → r.WellFormed

variable {n : Nat}

theorem KeepsForm.mul_succ (kept : KeepsForm n) {a b r : Expr} (formedA : a.WellFormed)
    (formedB : b.WellFormed) (returned : mulWithin (n + 1) a b = .ok r) : r.WellFormed := by
  unfold mulWithin at returned
  split at returned
  · cases returned
    trivial
  split at returned
  · cases returned
    exact formedB.scale _
  · cases returned
    exact formedA.scale _
  · obtain ⟨⟨factors, c⟩, found, returned⟩ := Outcome.bind_ok returned
    cases returned
    refine (kept.merge (fun f member => ?_) ⟨?_, ?_, ?_⟩ found).ofFactors c
    · rcases List.mem_append.mp member with left | right
      · exact formedA.factors f left
      · exact formedB.factors f right
    all_goals simp

/-- One step of merging: a factor of a new base joins the others, one of a known base starts again
as the power of that base. -/
theorem mergeWithin_cons {f : Expr} {pending : List Expr} {factors : List (String × Expr)} {c : Rat}
    {merged : List (String × Expr) × Rat}
    (returned : mergeWithin (n + 1) (f :: pending) factors c = .ok merged) :
    f.hasBaseKey = true ∧
      (removeFactor f.baseKey factors = none ∧
          mergeWithin n pending (factors ++ [(f.baseKey, f)]) c = .ok merged ∨
        ∃ g others exponent power, removeFactor f.baseKey factors = some (g, others) ∧
          add (exponentOf g) (exponentOf f) = .ok exponent ∧
          powWithin n (baseOf g) exponent = .ok power ∧
          mergeWithin n (pending ++ mergedFactors power) others (c * power.coeff) = .ok merged) := by
  rw [mergeWithin] at returned
  obtain ⟨keyed, returned⟩ := Outcome.passed returned
  refine ⟨by simpa [hasBaseKey] using keyed, ?_⟩
  cases found : removeFactor f.baseKey factors with
  | none =>
    rw [baseKey] at found
    rw [found] at returned
    exact .inl ⟨rfl, returned⟩
  | some pair =>
    rw [baseKey] at found
    rw [found] at returned
    obtain ⟨exponent, added, returned⟩ := Outcome.bind_ok returned
    obtain ⟨power, raised, returned⟩ := Outcome.bind_ok returned
    exact .inr ⟨pair.1, pair.2, exponent, power, rfl, added, raised, returned⟩

theorem KeepsForm.merge_succ (kept : KeepsForm n) {pending : List Expr}
    {factors merged : List (String × Expr)} {c d : Rat}
    (proper : ∀ f ∈ pending, f.WellFormed ∧ IsFactor f) (before : Merged factors)
    (returned : mergeWithin (n + 1) pending factors c = .ok (merged, d)) : Merged merged := by
  cases pending with
  | nil =>
    cases returned
    exact before
  | cons f pending =>
    have properF := proper f List.mem_cons_self
    have properRest : ∀ g ∈ pending, g.WellFormed ∧ IsFactor g :=
      fun g later => proper g (List.mem_cons_of_mem _ later)
    obtain ⟨keyed, ⟨absent, returned⟩ | ⟨g, others, exponent, power, found, added, raised, returned⟩⟩ :=
      mergeWithin_cons returned
    · exact kept.merge properRest (before.append (removeFactor_none absent) keyed properF) returned
    · obtain ⟨perm, sub⟩ := removeFactor_some found
      have properG := (before.proper (f.baseKey, g) (perm.mem_iff.mpr List.mem_cons_self)).1
      have formed : power.WellFormed := kept.pow properG.baseOf
        (add_wellFormed properG.exponentOf properF.1.exponentOf added) raised
      refine kept.merge (fun h member => ?_) (before.sublist sub) returned
      rcases List.mem_append.mp member with old | new
      · exact properRest h old
      · exact formed.mergedFactors h new

theorem KeepsForm.foldlM_mul (kept : KeepsForm n) {p : Rat} {factors : List Expr} {first r : Expr}
    (proper : ∀ f ∈ factors, f.WellFormed) (formed : first.WellFormed)
    (returned : factors.foldlM (fun result f => do
      mulWithin n result (← powRatWithin n f p)) first = .ok r) : r.WellFormed := by
  induction factors generalizing first with
  | nil =>
    cases returned
    exact formed
  | cons f rest ih =>
    rw [List.foldlM_cons] at returned
    obtain ⟨next, stepped, returned⟩ := Outcome.bind_ok returned
    obtain ⟨power, raised, stepped⟩ := Outcome.bind_ok stepped
    have formedPower := kept.powRat (proper f List.mem_cons_self) raised
    exact ih (fun g later => proper g (List.mem_cons_of_mem _ later))
      (kept.mul formed formedPower stepped) returned

theorem KeepsForm.powRat_succ (kept : KeepsForm n) {a r : Expr} {p : Rat} (formed : a.WellFormed)
    (returned : powRatWithin (n + 1) a p = .ok r) : r.WellFormed := by
  unfold powRatWithin at returned
  split at returned
  · split at returned
    · cases returned
    · cases returned
      trivial
  next nonzero =>
    split at returned
    · cases returned
      exact formed
    split at returned
    next c =>
      split at returned
      · split at returned
        · cases returned
        · cases returned
          trivial
      · exact powNumber_wellFormed returned
    next c factors =>
      obtain ⟨outer, raised, returned⟩ := Outcome.bind_ok returned
      exact kept.foldlM_mul (allWellFormed_iff.mp formed.2.2) (powNumber_wellFormed raised) returned
    next c base exponent =>
      obtain ⟨outer, raised, returned⟩ := Outcome.bind_ok returned
      obtain ⟨inner, powered, returned⟩ := Outcome.bind_ok returned
      exact kept.mul (powNumber_wellFormed raised)
        (kept.pow formed.2.2.1 (formed.2.2.2.scale p) powered) returned
    next c name q =>
      obtain ⟨outer, raised, returned⟩ := Outcome.bind_ok returned
      have formedOuter := powNumber_wellFormed raised
      split at returned
      · obtain ⟨inner, powered, returned⟩ := Outcome.bind_ok returned
        exact kept.mul formedOuter (powNumber_wellFormed powered) returned
      next proper =>
        split at returned
        · exact kept.mul formedOuter (powerOfI_wellFormed _) returned
        next imaginary =>
          refine kept.mul formedOuter ?_ returned
          split
          · trivial
          next total =>
            refine ⟨one_ne_zero, total, formed.2.2.1, fun digits => absurd digits proper,
              fun same whole => absurd ?_ imaginary⟩
            simp [same, Rational.isInteger, whole]
    next number product exponential symbol =>
      obtain ⟨outer, raised, returned⟩ := Outcome.bind_ok returned
      refine kept.mul (powNumber_wellFormed raised) ?_ returned
      split
      · trivial
      next total =>
        refine formed.unit.withPower ?_ total
        cases a with
        | symbol c name q => exact absurd rfl (symbol c name q)
        | _ => rfl

theorem naturalLog?_eq {name : String} {p k : Rat} {b u : Expr}
    (found : naturalLog? name p b = some (k, u)) : ∃ f q, b = call k f [u] q := by
  unfold naturalLog? at found
  split at found
  next k' f u' q =>
    split at found
    · cases found
      exact ⟨f, q, rfl⟩
    · cases found
  next => cases found

theorem KeepsForm.pow_succ (kept : KeepsForm n) {a b r : Expr} (formedA : a.WellFormed)
    (formedB : b.WellFormed) (returned : powWithin (n + 1) a b = .ok r) : r.WellFormed := by
  unfold powWithin at returned
  split at returned
  · exact kept.powRat formedA returned
  next proper =>
    have proper : b.isNumber = false := by
      cases b with
      | number p => exact absurd rfl (proper p)
      | _ => rfl
    have build {base : Expr} (formed : base.WellFormed) : (exponential 1 base b).WellFormed :=
      ⟨one_ne_zero, proper, formed, formedB⟩
    split at returned
    · cases returned
      trivial
    split at returned
    · cases returned
      trivial
    split at returned
    next c base exponent =>
      split at returned
      · obtain ⟨product, multiplied, returned⟩ := Outcome.bind_ok returned
        exact kept.pow formedA.2.2.1 (kept.mul formedA.2.2.2 formedB multiplied) returned
      · cases returned
        exact build formedA
    next c name p _ _ =>
      have ⟨_, power, named, _, _⟩ := formedA
      split at returned
      · split at returned
        next k u found =>
          obtain ⟨f, q, rfl⟩ := naturalLog?_eq found
          exact kept.powRat formedB.2.2.2.2.1 returned
        next =>
          cases returned
          refine ⟨one_ne_zero, WellFormed.isNumber_scale proper power, ?_, formedB.scale p⟩
          split
          · trivial
          next other =>
            have other : isIntegerText name = false := by simpa using other
            exact wellFormed_bare (named.resolve_right (by simp [other])) other
      · cases returned
        exact build formedA
    next =>
      cases returned
      exact build formedA

/-- Whatever the work limit, products and powers of well-formed trees are well formed. -/
theorem keepsForm (n : Nat) : KeepsForm n := by
  induction n with
  | zero =>
    constructor
    · intro a b r _ _ returned
      cases returned
    · intro pending factors merged c d _ before returned
      cases pending with
      | nil =>
        cases returned
        exact before
      | cons => cases returned
    · intro a r p _ returned
      cases returned
    · intro a b r _ _ returned
      cases returned
  | succ n kept => exact ⟨kept.mul_succ, kept.merge_succ, kept.powRat_succ, kept.pow_succ⟩

theorem mul_wellFormed {a b r : Expr} (formedA : a.WellFormed) (formedB : b.WellFormed)
    (returned : mul a b = .ok r) : r.WellFormed := (keepsForm _).mul formedA formedB returned

theorem powRat_wellFormed {a r : Expr} {p : Rat} (formed : a.WellFormed)
    (returned : powRat a p = .ok r) : r.WellFormed := (keepsForm _).powRat formed returned

theorem pow_wellFormed {a b r : Expr} (formedA : a.WellFormed) (formedB : b.WellFormed)
    (returned : pow a b = .ok r) : r.WellFormed := (keepsForm _).pow formedA formedB returned

theorem inv_wellFormed {a r : Expr} (formed : a.WellFormed) (returned : inv a = .ok r) :
    r.WellFormed := by
  unfold inv at returned
  split at returned
  · obtain ⟨_, _, returned⟩ := Outcome.bind_ok returned
    cases returned
    trivial
  · exact powRat_wellFormed formed returned

theorem div_wellFormed {a b r : Expr} (formedA : a.WellFormed) (formedB : b.WellFormed)
    (returned : div a b = .ok r) : r.WellFormed := by
  obtain ⟨_, returned⟩ := Outcome.passed returned
  obtain ⟨inverse, inverted, returned⟩ := Outcome.bind_ok returned
  exact mul_wellFormed formedA (inv_wellFormed formedB inverted) returned

end ExactAlgebra.Expr
