import ExactAlgebra.Proofs.Agreement
import ExactAlgebra.Proofs.CircleRoots
import ExactAlgebra.Proofs.Collection
import ExactAlgebra.Proofs.PowerSums
import ExactAlgebra.Proofs.Substitution
import ExactAlgebra.Proofs.SumText
import ExactAlgebra.Solve.Equation
import Mathlib

/-! Rational zeros of a quotient of polynomials. A root of the numerator is told from a pole by putting
it into the denominator as that is written. Where this has no value although the quotient has one, the
root is dropped. -/
namespace ExactAlgebra
open Engine ExactAlgebra.Expr

variable {context : Context}

theorem KnowsCircle.block (knows : KnowsCircle context) (guard : Deadline.Guard) :
    KnowsCircle (block context guard) := ⟨knows.calls, knows.sin, knows.cos⟩

theorem linearRoots_wellFormed {b a : Expr} (formedB : b.WellFormed) (formedA : a.WellFormed)
    {es : List Expr} (returned : linearRoots b a = .ok es) : ∀ e ∈ es, e.WellFormed := by
  obtain ⟨quotient, divided, returned⟩ := Outcome.bind_ok returned
  cases returned
  intro e member
  obtain rfl := List.mem_singleton.mp member
  exact (div_wellFormed formedB formedA divided).neg

theorem returns_quadraticRoots_wellFormed {c b a : Expr} (formedC : c.WellFormed)
    (formedB : b.WellFormed) (formedA : a.WellFormed) :
    Returns context (quadraticRoots c b a) fun es => ∀ e ∈ es, e.WellFormed := by
  unfold quadraticRoots
  refine Meets.bind _ (Returns.lift fun _ => mul_wellFormed formedB formedB) fun square formedSquare => ?_
  refine Meets.bind _ (Returns.lift fun _ => mul_wellFormed formedA formedC) fun product formedProduct => ?_
  refine Meets.bind _ (Returns.lift fun _ => sub_wellFormed formedSquare (formedProduct.scale 4))
    fun difference formedDifference => ?_
  refine Meets.bind _ (expand_wellFormed formedDifference) fun discriminant formed => ?_
  have below := formedA.scale 2
  dsimp only
  split
  · refine Meets.bind _ (Returns.lift fun _ => div_wellFormed formedB.neg below) fun root formedRoot => ?_
    exact Meets.pure (by simpa using formedRoot)
  · refine Meets.bind _ (Returns.lift fun _ => powRat_wellFormed formed) fun root formedRoot => ?_
    refine Meets.bind _ (Returns.lift fun _ => add_wellFormed formedB.neg formedRoot) fun sum formedSum => ?_
    refine Meets.bind _ (Returns.lift fun _ => div_wellFormed formedSum below) fun first formedFirst => ?_
    refine Meets.bind _ (Returns.lift fun _ => sub_wellFormed formedB.neg formedRoot)
      fun difference formedDifference => ?_
    refine Meets.bind _ (Returns.lift fun _ => div_wellFormed formedDifference below)
      fun second formedSecond => Meets.pure ?_
    simpa using And.intro formedFirst formedSecond

namespace Poly

theorem returns_numericRoots_wellFormed (p : Poly) :
    Returns context p.numericRoots fun es => ∀ e ∈ es, e.WellFormed := by
  unfold numericRoots
  refine Meets.bind _ (Meets.anyway _) fun cs _ => ?_
  refine Meets.bind _ (Meets.anyway rootFinder) fun find _ => Meets.filterMapM fun z _ => ?_
  unfold polishRoot?
  refine Meets.bind _ (Meets.anyway _) fun _ _ => ?_
  split
  · exact Meets.pure (by simp)
  · refine Meets.bind _ (Meets.anyway _) fun x _ => ?_
    refine Meets.bind _ (Meets.anyway _) fun q _ => Meets.pure ?_
    rintro e ⟨⟩
    exact trivial

theorem returns_irrationalRoots_wellFormed (knows : KnowsCircle context) (p : Poly) :
    Returns context p.irrationalRoots fun es => ∀ e ∈ es, e.WellFormed := by
  unfold irrationalRoots
  have numbers : ∀ e ∈ p.coefficients.map number, e.WellFormed := by
    intro e member
    obtain ⟨c, -, rfl⟩ := List.mem_map.mp member
    exact trivial
  split
  next => exact Meets.pure (by simp)
  next => exact Meets.pure (by simp)
  next b a same =>
    rw [same] at numbers
    exact Returns.lift fun es returned => linearRoots_wellFormed (numbers b (by simp)) (numbers a (by simp)) returned
  next c b a same =>
    rw [same] at numbers
    exact returns_quadraticRoots_wellFormed (numbers c (by simp)) (numbers b (by simp)) (numbers a (by simp))
  next =>
    split
    next twoTerm => exact (returns_twoTermRoots knows twoTerm).imp fun _ => And.left
    next => exact returns_numericRoots_wellFormed p

/-- Every rational root of a polynomial is among its roots, unless the search for them was skipped. -/
theorem returns_roots (knows : KnowsCircle context) {p : Poly} (nonzero : p.toPolynomial ≠ 0)
    (searched : Returns context p.searchLimit p.Searched) :
    Returns context p.roots fun es =>
      (∀ e ∈ es, e.WellFormed) ∧ ∀ r : ℚ, p.toPolynomial.eval r = 0 → number r ∈ es := by
  unfold roots
  split
  next twoTerm => exact returns_twoTermRoots knows twoTerm
  have found : Returns context p.findRoots fun rational =>
      ∀ r, p.toPolynomial.eval r = 0 → r ∈ rational := by
    refine Meets.bind _ searched fun limit within => Meets.pure fun r root => ?_
    by_cases constant : p.degree < 1
    · rw [degree_eq nonzero] at constant
      obtain ⟨c, same⟩ := Polynomial.natDegree_eq_zero.mp (by omega : p.toPolynomial.natDegree = 0)
      rw [← same, Polynomial.eval_C] at root
      rw [← same, root, map_zero] at nonzero
      exact absurd rfl nonzero
    · exact (mem_rationalRoots within constant).mpr root
  refine Meets.bind _ found fun rational all => ?_
  refine Meets.bind _ (Meets.anyway _) fun rest _ => ?_
  refine Meets.bind _ (returns_irrationalRoots_wellFormed knows rest) fun others formed => Meets.pure ?_
  constructor
  · intro e member
    rcases List.mem_append.mp member with exact | other
    · obtain ⟨r, -, rfl⟩ := List.mem_map.mp exact
      exact trivial
    · exact formed e other
  · intro r root
    exact List.mem_append_left _ (List.mem_map_of_mem (all r root))

end Poly

namespace Expr

/-- An entry is taken unless its text was seen. -/
def takeNew (taken : List (String × Expr)) (entry : String × Expr) : List (String × Expr) :=
  if taken.any (·.1 == entry.1) then taken else taken ++ [entry]

theorem takeNew_spec {taken : List (String × Expr)} (different : (taken.map Prod.fst).Nodup)
    (entry : String × Expr) :
    ((takeNew taken entry).map Prod.fst).Nodup ∧ (∀ old ∈ taken, old ∈ takeNew taken entry) ∧
      (∀ new ∈ takeNew taken entry, new ∈ taken ∨ new = entry) ∧
      ∃ new ∈ takeNew taken entry, new.1 = entry.1 := by
  unfold takeNew
  split
  next seen =>
    obtain ⟨old, member, same⟩ := List.any_eq_true.mp seen
    exact ⟨different, fun _ inside => inside, fun _ inside => .inl inside, old, member, eq_of_beq same⟩
  next unseen =>
    refine ⟨?_, fun old member => List.mem_append_left _ member, fun new member => ?_, entry, by simp, rfl⟩
    · rw [List.map_append, List.map_singleton, List.nodup_append]
      refine ⟨different, List.nodup_singleton _, ?_⟩
      rintro _ inside _ single rfl
      obtain ⟨old, member, same⟩ := List.mem_map.mp inside
      obtain rfl := List.mem_singleton.mp single
      exact unseen (List.any_eq_true.mpr ⟨old, member, beq_iff_eq.mpr same⟩)
    · exact (List.mem_append.mp member).imp_right List.mem_singleton.mp

theorem foldl_takeNew_spec (entries : List (String × Expr)) {taken : List (String × Expr)}
    (different : (taken.map Prod.fst).Nodup) :
    ((entries.foldl takeNew taken).map Prod.fst).Nodup ∧
      (∀ old ∈ taken, old ∈ entries.foldl takeNew taken) ∧
      (∀ new ∈ entries.foldl takeNew taken, new ∈ taken ∨ new ∈ entries) ∧
      ∀ entry ∈ entries, ∃ new ∈ entries.foldl takeNew taken, new.1 = entry.1 := by
  induction entries generalizing taken with
  | nil => exact ⟨different, fun _ inside => inside, fun _ inside => .inl inside, by simp⟩
  | cons entry entries ih =>
    obtain ⟨differentNext, kept, origin, found, here, same⟩ := takeNew_spec different entry
    obtain ⟨differentAll, keptAll, originAll, cover⟩ := ih differentNext
    refine ⟨differentAll, fun old member => keptAll old (kept old member), fun new member => ?_,
      fun other member => ?_⟩
    · rcases originAll new member with earlier | later
      · rcases origin new earlier with old | rfl
        · exact .inl old
        · exact .inr List.mem_cons_self
      · exact .inr (List.mem_cons_of_mem _ later)
    · rcases List.mem_cons.mp member with rfl | later
      · exact ⟨found, keptAll found here, same⟩
      · exact cover other later

/-- Of the expressions with one text, one is left. -/
theorem distinct_spec {es ds : List Expr} (returned : distinct es = .ok ds) :
    (ds.map text).Nodup ∧ (∀ d ∈ ds, d ∈ es) ∧ ∀ e ∈ es, ∃ d ∈ ds, d.text = e.text := by
  obtain ⟨named, entries, returned⟩ := Outcome.bind_ok returned
  have shape : named = es.map fun e => (e.text, e) :=
    Outcome.eq_map_of_mapM entries fun e _ entry written => by
      obtain ⟨t, rendered, written⟩ := Outcome.bind_ok written
      cases written
      rw [text_of_render rendered]
  obtain rfl : (named.foldl takeNew []).map Prod.snd = ds := Except.ok.inj returned
  obtain ⟨different, -, origin, cover⟩ := @foldl_takeNew_spec named [] List.nodup_nil
  have inside : ∀ entry ∈ named.foldl takeNew [], entry.2 ∈ es ∧ entry.1 = entry.2.text := by
    intro entry member
    have named := (origin entry member).resolve_left List.not_mem_nil
    rw [shape] at named
    obtain ⟨e, inside, rfl⟩ := List.mem_map.mp named
    exact ⟨inside, rfl⟩
  refine ⟨?_, fun d member => ?_, fun e member => ?_⟩
  · have texts : (named.foldl takeNew []).map Prod.fst = (named.foldl takeNew []).map (text ∘ Prod.snd) :=
      List.map_congr_left fun entry member => (inside entry member).2
    rwa [List.map_map, ← texts]
  · obtain ⟨entry, taken, rfl⟩ := List.mem_map.mp member
    exact (inside entry taken).1
  · obtain ⟨entry, taken, same⟩ := cover (e.text, e) (shape ▸ List.mem_map_of_mem member)
    exact ⟨entry.2, List.mem_map_of_mem taken, (inside entry taken).2.symm.trans same⟩

variable {e numerator denominator : Expr} {x : String} {p q : Poly}

/-- An expression without the unknown is read as a constant, so it has no zero. -/
theorem eval_ne_zero_of_absent (unknown : isVariableName x = true) (absent : e.contains x = false)
    (reads : Yields context (e.poly? x) (some p)) (nonzero : p.toPolynomial ≠ 0) (r : ℚ) :
    p.toPolynomial.eval r ≠ 0 := by
  obtain ⟨c, same⟩ := (returns_poly?_of_absent unknown absent).yielded reads p rfl
  rw [same] at nonzero ⊢
  rw [Polynomial.eval_C]
  rintro rfl
  exact nonzero (map_zero _)

theorem returns_rootsOf (knows : KnowsCircle context) (unknown : isVariableName x = true)
    {other : Context} (reads : Yields other (e.poly? x) (some p)) (nonzero : p.toPolynomial ≠ 0)
    (searched : Returns context p.searchLimit p.Searched) :
    Returns context (rootsOf x e) fun es =>
      (∀ e ∈ es, e.WellFormed) ∧ ∀ r : ℚ, p.toPolynomial.eval r = 0 → number r ∈ es := by
  unfold rootsOf
  refine Meets.bind _ (Meets.anyway _) fun _ _ => ?_
  split
  next absent =>
    have absent : e.contains x = false := by simpa using absent
    exact Meets.pure ⟨by simp, fun r root =>
      absurd root (eval_ne_zero_of_absent unknown absent reads nonzero r)⟩
  next =>
    have exact : Returns context (e.algebraicRoots? x) fun es? => ∃ es, es? = some es ∧
        (∀ e ∈ es, e.WellFormed) ∧ ∀ r : ℚ, p.toPolynomial.eval r = 0 → number r ∈ es := by
      unfold algebraicRoots?
      refine Meets.bind _ (steady_poly? e x reads context) ?_
      rintro _ rfl
      exact Meets.bind _ (Poly.returns_roots knows nonzero searched) fun es spec =>
        Meets.pure ⟨es, rfl, spec⟩
    refine Meets.bind _ exact ?_
    rintro _ ⟨es, rfl, spec⟩
    exact Meets.pure spec

/-- Where the denominator comes to something that is zero when it ought to be, its zeros are told. -/
theorem returns_vanishesAt {guard : Deadline.Guard} (opened : 0 < guard.depth) {r : ℚ}
    (value : ComesTo context denominator x r fun v => v.isZero = true ↔ q.toPolynomial.eval r = 0) :
    Returns (block context guard) (denominator.vanishesAt x (number r)) fun vanishes =>
      vanishes = true ↔ q.toPolynomial.eval r = 0 := by
  unfold vanishesAt
  refine Meets.bind _ ((Meets.attempt (value guard opened) fun _ => id).accept fun _ _ => trivial) ?_
  rintro _ ⟨v, rfl, told⟩
  exact Meets.pure told

/-- A number passes the filter unless it is a pole. -/
theorem returns_filterM_vanishesAt {guard : Deadline.Guard} (opened : 0 < guard.depth) {r : ℚ}
    (value : ComesTo context denominator x r fun v => v.isZero = true ↔ q.toPolynomial.eval r = 0)
    (found : List Expr) :
    Returns (block context guard)
      (found.filterM fun root => do return !(← denominator.vanishesAt x root)) fun kept =>
        (∀ root ∈ kept, root ∈ found) ∧
          (number r ∈ kept ↔ number r ∈ found ∧ q.toPolynomial.eval r ≠ 0) := by
  refine (@Meets.filterM _ _ _ _ found
    (fun root keep => root = number r → (keep = true ↔ q.toPolynomial.eval r ≠ 0)) ?_).imp ?_
  · rintro root -
    by_cases same : root = number r
    · subst same
      refine Meets.bind _ (returns_vanishesAt opened value) fun vanishes told => Meets.pure fun _ => ?_
      rw [ne_eq, ← told, Bool.not_eq_true', Bool.not_eq_true]
    · exact (Meets.anyway _).imp fun _ _ equal => absurd equal same
  · rintro kept ⟨passed, decided⟩
    refine ⟨fun root member => (passed root member).1, fun member => ?_, fun ⟨member, proper⟩ => ?_⟩
    · exact ⟨(passed _ member).1, ((passed _ member).2 rfl).mp rfl⟩
    · exact (decided _ member).resolve_right fun dropped => Bool.false_ne_true ((dropped rfl).mpr proper)

/-- Expressions without a text in common hold each number once, and those they were taken from. -/
theorem count_of_distinct {kept roots : List Expr} (formed : ∀ e ∈ kept, e.WellFormed)
    (returned : distinct kept = .ok roots) (r : ℚ) :
    (number r ∈ kept → (roots.filterMap value?).count r = 1) ∧ (number r ∉ kept → number r ∉ roots) := by
  obtain ⟨different, origin, cover⟩ := distinct_spec returned
  constructor
  · intro member
    obtain ⟨root, inside, same⟩ := cover _ member
    obtain rfl := eq_number_of_text_eq (formed root (origin root inside)) same
    refine List.count_eq_one_of_mem (different.of_map.filterMap fun a b c left right => ?_)
      (List.mem_filterMap.mpr ⟨_, inside, rfl⟩)
    rw [eq_number_of_value? left, eq_number_of_value? right]
  · intro absent member
    exact absent (origin _ member)

/-- Over a common denominator the expression is a quotient of polynomials, and the search for rational
roots of the one above the line is not skipped. -/
structure IsQuotient (context : Context) (e : Expr) (x : String) (denominator : Expr) (p q : Poly) :
    Prop where
  above : ∃ numerator, Yields context e.together (numerator, denominator) ∧
    Yields context (numerator.poly? x) (some p)
  below : Yields context (denominator.poly? x) (some q)
  nonzero : p.toPolynomial ≠ 0
  searched : ∃ limit, Yields context p.searchLimit limit ∧ p.Searched limit

/-- Solving a quotient of polynomials in one unknown finds every rational zero and no pole. Which is
which is decided on the denominator as it is written. A polynomial expression tells the zeros of its
polynomial; of any other one it has to be known that it has a value there, and that this is the number
zero just where the polynomial vanishes. -/
theorem solve_finds_rational_zeros_and_no_pole (knows : KnowsCircle context)
    (unknown : isVariableName x = true) (quotient : IsQuotient context e x denominator p q)
    (nonzero : q.toPolynomial ≠ 0) {roots : List Expr} (solved : Yields context (e.solve (some x)) roots)
    (r : ℚ) (told : IsPolynomial denominator ∨
      ComesTo context denominator x r fun v => v.isZero = true ↔ q.toPolynomial.eval r = 0) :
    (p.toPolynomial.eval r = 0 → q.toPolynomial.eval r ≠ 0 →
      (roots.filterMap value?).count r = 1) ∧
    (q.toPolynomial.eval r = 0 → number r ∉ roots) := by
  obtain ⟨numerator, combined, above⟩ := quotient.above
  obtain ⟨limit, limited, searched⟩ := quotient.searched
  have value : ComesTo context denominator x r fun v => v.isZero = true ↔ q.toPolynomial.eval r = 0 := by
    rcases told with poly | value
    · intro guard opened
      have reads := (returns_poly? poly).yielded quotient.below q rfl
      refine (poly.comesTo reads r guard opened).imp ?_
      rintro _ rfl
      exact beq_iff_eq
    · exact value
  have solves : Returns context (e.solve (some x)) fun roots =>
      (p.toPolynomial.eval r = 0 → q.toPolynomial.eval r ≠ 0 →
        (roots.filterMap value?).count r = 1) ∧
      (q.toPolynomial.eval r = 0 → number r ∉ roots) := by
    refine Returns.guarded fun guard opened => ?_
    refine Meets.bind _ (Meets.anyway _) fun _ _ => ?_
    rw [Option.some_or]
    dsimp only
    split
    next absent =>
      have absent : e.contains x = false := by simpa using absent
      have parts := (names_together (admits_ne unknown) (contains_eq_false_iff.mp absent)).yielded combined
      have constant := contains_eq_false_iff.mpr parts.1
      exact Meets.pure ⟨fun root =>
        absurd root (eval_ne_zero_of_absent unknown constant above quotient.nonzero r), by simp⟩
    next =>
      refine Meets.bind _ (steady_together e combined _) ?_
      rintro _ rfl
      have search : Returns (block context guard) p.searchLimit p.Searched := by
        refine (Poly.returns_searchLimit limited (get_block context guard (by decide))).imp ?_
        rintro _ rfl
        exact searched
      refine Meets.bind _ (returns_rootsOf (knows.block guard) unknown above quotient.nonzero search)
        fun found ⟨formed, all⟩ => ?_
      split
      next =>
        refine Meets.bind _ (returns_filterM_vanishesAt opened value found) fun kept ⟨passed, keeps⟩ => ?_
        refine Returns.lift fun roots returned => ?_
        obtain ⟨once, none⟩ := count_of_distinct (fun e member => formed e (passed e member)) returned r
        exact ⟨fun root proper => once (keeps.mpr ⟨all r root, proper⟩),
          fun pole => none fun member => (keeps.mp member).2 pole⟩
      next absent =>
        have proper := eval_ne_zero_of_absent unknown (Bool.eq_false_iff.mpr absent) quotient.below nonzero r
        refine Returns.lift fun roots returned => ?_
        exact ⟨fun root _ => (count_of_distinct formed returned r).1 (all r root),
          fun pole => absurd pole proper⟩
  exact solves.yielded solved

/-- The coefficients above and below the line, and the numbers among the roots. -/
def outline (e : Expr) (x : String) : Engine (Option (List ℚ) × Option (List ℚ) × List (Option ℚ)) := do
  let parts ← e.together
  let p? ← parts.1.poly? x
  let q? ← parts.2.poly? x
  return (p?.map Poly.coefficients, q?.map Poly.coefficients, (← e.solve (some x)).map value?)

theorem number_mem_iff {roots : List Expr} {r : ℚ} : number r ∈ roots ↔ some r ∈ roots.map value? := by
  constructor
  · intro member
    exact List.mem_map.mpr ⟨_, member, rfl⟩
  · intro member
    obtain ⟨root, inside, value⟩ := List.mem_map.mp member
    exact eq_number_of_value? value ▸ inside

/-- A zero of the quotient is not among the roots. -/
def LosesZero (context : Context) (e : Expr) (x : String) (r : ℚ) : Prop :=
  ∃ denominator p q roots, IsQuotient context e x denominator p q ∧
    Yields context (e.solve (some x)) roots ∧
    p.toPolynomial.eval r = 0 ∧ q.toPolynomial.eval r ≠ 0 ∧ number r ∉ roots

/-- A zero of the denominator is among the roots. -/
def KeepsPole (context : Context) (e : Expr) (x : String) (r : ℚ) : Prop :=
  ∃ denominator p q roots, IsQuotient context e x denominator p q ∧
    Yields context (e.solve (some x)) roots ∧ q.toPolynomial.eval r = 0 ∧ number r ∈ roots

section Runs

variable {above below : List ℚ} {values : List (Option ℚ)} {r : ℚ}
  (answer : ((outline e x context).run.run 0).1.toOption = some (some above, some below, values))
  (nonzero : (Poly.ofList above).isZero = false)
  (search : (((Poly.ofList above).searchLimit context).run.run 0).1.toOption.any (fun limit =>
    (Poly.ofList above).rootSearch?.all fun search => (search.candidates? limit).isSome) = true)
include answer nonzero search

theorem exists_quotient :
    ∃ denominator roots, IsQuotient context e x denominator (Poly.ofList above) (Poly.ofList below) ∧
      Yields context (e.solve (some x)) roots ∧ roots.map value? = values := by
  obtain ⟨last, run⟩ := exists_run answer
  obtain ⟨⟨numerator, denominator⟩, combined, rest⟩ := Yields.bind ⟨0, last, run⟩
  obtain ⟨p?, readAbove, rest⟩ := rest.bind
  obtain ⟨q?, readBelow, rest⟩ := rest.bind
  obtain ⟨roots, solved, looks, later, returned⟩ := rest.bind
  obtain ⟨sameAbove, same⟩ := Prod.mk.inj (Except.ok.inj (congrArg Prod.fst returned))
  obtain ⟨sameBelow, same⟩ := Prod.mk.inj same
  refine ⟨denominator, roots, ⟨⟨numerator, combined, Poly.eq_ofList sameAbove ▸ readAbove⟩,
    Poly.eq_ofList sameBelow ▸ readBelow,
    ?_, ?_⟩, solved, same⟩
  · rw [ne_eq, ← Poly.isZero_iff, nonzero]
    exact Bool.false_ne_true
  · cases found : (((Poly.ofList above).searchLimit context).run.run 0).1.toOption with
    | none =>
      rw [found] at search
      cases search
    | some limit =>
      obtain ⟨later, limited⟩ := exists_run found
      refine ⟨limit, ⟨0, later, limited⟩, fun inside present skipped => ?_⟩
      rw [found, Option.any_some, present, Option.all_some, skipped] at search
      cases search

theorem losesZero_of_outline (root : (Poly.ofList above).evaluate r = 0)
    (proper : (Poly.ofList below).evaluate r ≠ 0) (absent : some r ∉ values) : LosesZero context e x r := by
  obtain ⟨denominator, roots, quotient, solved, rfl⟩ := exists_quotient answer nonzero search
  rw [Poly.evaluate_eq] at root proper
  exact ⟨denominator, _, _, roots, quotient, solved, root, proper, mt number_mem_iff.mp absent⟩

theorem keepsPole_of_outline (pole : (Poly.ofList below).evaluate r = 0) (present : some r ∈ values) :
    KeepsPole context e x r := by
  obtain ⟨denominator, roots, quotient, solved, rfl⟩ := exists_quotient answer nonzero search
  rw [Poly.evaluate_eq] at pole
  exact ⟨denominator, _, _, roots, quotient, solved, pole, number_mem_iff.mpr present⟩

end Runs

/-- The zero of `(x-1)/(x+1)` and its pole. -/
theorem solve_quotient_of_neighbours :
    ∃ denominator roots,
      IsQuotient ⟨Session.initial.scope, callWithin maxCallDepth⟩
        (product 1 [sum 1 [bare "x", number (-1)] 1, sum 1 [bare "x", number 1] (-1)]) "x" denominator
        (Poly.ofList [-1, 1]) (Poly.ofList [1, 1]) ∧
      IsPolynomial denominator ∧
      Yields ⟨Session.initial.scope, callWithin maxCallDepth⟩
        ((product 1 [sum 1 [bare "x", number (-1)] 1, sum 1 [bare "x", number 1] (-1)]).solve (some "x"))
        roots ∧
      (roots.filterMap value?).count 1 = 1 ∧ number (-1) ∉ roots := by
  set context : Context := ⟨Session.initial.scope, callWithin maxCallDepth⟩
  set e := product 1 [sum 1 [bare "x", number (-1)] 1, sum 1 [bare "x", number 1] (-1)]
  have knows : KnowsCircle context := ⟨⟨_, rfl⟩, rfl, rfl⟩
  obtain ⟨denominator, roots, quotient, solved, -⟩ :=
    @exists_quotient context e "x" [-1, 1] [1, 1] [some 1] (by decide +kernel) (by decide) (by decide +kernel)
  obtain ⟨parts, found⟩ := Option.isSome_iff_exists.mp
    (show ((e.together context).run.run 0).1.toOption.isSome = true by decide +kernel)
  have shape : ((e.together context).run.run 0).1.toOption.any (fun parts =>
      isSumOf "x" [(1, 1), (1, 0)] parts.2) = true := by decide +kernel
  -- With the session left open, the elaborator does not start to run the computations.
  clear_value context e
  have poly : IsPolynomial denominator := by
    obtain ⟨numerator, combined, -⟩ := quotient.above
    obtain ⟨_, run⟩ := exists_run found
    obtain rfl := (steady_together e combined context).returned run
    rw [found, Option.any_some] at shape
    dsimp only at shape
    rw [show denominator = sum 1 [bare "x", number 1] 1 from eq_of_isSumOf shape]
    exact isPolynomial_succ_x
  have finds (r : ℚ) := solve_finds_rational_zeros_and_no_pole knows (by decide) quotient
    (by rw [ne_eq, ← Poly.isZero_iff]; decide) solved r (.inl poly)
  refine ⟨denominator, roots, quotient, poly, solved, (finds 1).1 ?_ ?_, (finds (-1)).2 ?_⟩
  all_goals norm_num [Poly.ofCoefficients]

/-- `x/((sqrt(x+1/x+1)+1/sqrt(x))*(sqrt(x+1/x+1)-1/sqrt(x)))`; the denominator is `x+1` where it has a
value. -/
def overConjugates : Expr :=
  let root := sum 1 [bare "x", symbol 1 "x" (-1), number 1] (1 / 2)
  product 1 [bare "x", sum 1 [root, symbol 1 "x" (-1 / 2)] (-1), sum 1 [root, symbol (-1) "x" (-1 / 2)] (-1)]

/-- `(x+1)/((x^(1/3)+i*x^(1/6)-1)*(x^(2/3)-i*sqrt(x)-i*x^(1/6)-1))`; the denominator is `x+1`. -/
def overSixthRoots : Expr :=
  let short := sum 1 [symbol 1 "x" (1 / 3), product 1 [bare "i", symbol 1 "x" (1 / 6)], number (-1)] (-1)
  let long := sum 1 [symbol 1 "x" (2 / 3), product (-1) [bare "i", symbol 1 "x" (1 / 2)],
    product (-1) [bare "i", symbol 1 "x" (1 / 6)], number (-1)] (-1)
  product 1 [sum 1 [bare "x", number 1] 1, short, long]

/-- `(x-1)/(((-1)^(1/6)+i)*((-1)^(1/6)-i))`; the denominator is zero. -/
def overConstants : Expr :=
  let root := symbol 1 "-1" (1 / 6)
  product 1 [sum 1 [bare "x", number (-1)] 1, sum 1 [root, bare "i"] (-1),
    sum 1 [root, symbol (-1) "i" 1] (-1)]

def withoutCosine : FunctionTable :=
  ("cos", ⟨"cos", 1, some 1, .definition ["t"] (.expr zero), false⟩) :: Builtin.functions

/-- What the conditions keep out: a denominator that has no value at a zero, one that is not seen to
vanish at a pole, one that is zero everywhere, and another cosine. -/
theorem quotients_solved_wrongly :
    LosesZero ⟨Session.initial.scope, callWithin maxCallDepth⟩ overConjugates "x" 0 ∧
    KeepsPole ⟨Session.initial.scope, callWithin maxCallDepth⟩ overSixthRoots "x" (-1) ∧
    KeepsPole ⟨Session.initial.scope, callWithin maxCallDepth⟩ overConstants "x" 1 ∧
    LosesZero ⟨{ Session.initial.scope with functions := withoutCosine }, callWithin maxCallDepth⟩
      (sum 1 [symbol 1 "x" 3, number (-8)] 1) "x" 2 := by
  refine ⟨?_, ?_, ?_, ?_⟩
  · exact @losesZero_of_outline _ _ _ [0, 1] [1, 1] [] 0 (by decide +kernel) (by decide) (by decide +kernel)
      (by decide +kernel) (by decide +kernel) (by decide)
  · exact @keepsPole_of_outline _ _ _ [1, 1] [1, 1] [some (-1)] (-1) (by decide +kernel) (by decide)
      (by decide +kernel) (by decide +kernel) (by decide)
  · exact @keepsPole_of_outline _ _ _ [-1, 1] [] [some 1] 1 (by decide +kernel) (by decide)
      (by decide +kernel) (by decide +kernel) (by decide)
  · exact @losesZero_of_outline _ _ _ [-8, 0, 0, 1] [1] [some 0, none, none] 2 (by decide +kernel) (by decide)
      (by decide +kernel) (by decide +kernel) (by decide +kernel) (by decide)

end Expr
end ExactAlgebra
