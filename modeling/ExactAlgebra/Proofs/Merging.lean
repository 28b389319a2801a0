import ExactAlgebra.Proofs.AdditionValue
import ExactAlgebra.Proofs.Multiplication
import Mathlib

/-! Products of expressions of one kind, whatever they stand for. Where two like factors merge into factors
of the same kind and value, so do all of them, and the product of two expressions has the product of their
values. It is returned, unless something in a factor is too long to be written out. -/
namespace ExactAlgebra.Expr

theorem mergeWithin_keyless {n : Nat} {f : Expr} {pending : List Expr}
    {factors : List (String × Expr)} {c : Rat} (keyless : f.hasBaseKey = false) :
    mergeWithin (n + 1) (f :: pending) factors c = .error .unsupported := by
  have keyless : f.face.hasKey = false := keyless
  rw [mergeWithin]
  simp only [keyless]
  rfl

theorem mergeWithin_fresh {n : Nat} {f : Expr} {pending : List Expr}
    {factors : List (String × Expr)} {c : Rat} (keyed : f.hasBaseKey = true)
    (fresh : removeFactor f.baseKey factors = none) :
    mergeWithin (n + 1) (f :: pending) factors c =
      mergeWithin n pending (factors ++ [(f.baseKey, f)]) c := by
  have keyed : f.face.hasKey = true := keyed
  have fresh : removeFactor f.face.key factors = none := fresh
  rw [mergeWithin]
  simp only [keyed, fresh]
  rfl

/-- What becomes of two factors with the same key. -/
def mergeAlike (n : Nat) (g f : Expr) : Except Fault Expr := do
  powWithin n (baseOf g) (← add (exponentOf g) (exponentOf f))

theorem mergeWithin_found {n : Nat} {f g : Expr} {pending : List Expr}
    {factors others : List (String × Expr)} {c : Rat} (keyed : f.hasBaseKey = true)
    (found : removeFactor f.baseKey factors = some (g, others)) :
    mergeWithin (n + 1) (f :: pending) factors c = (do
      let merged ← mergeAlike n g f
      mergeWithin n (pending ++ mergedFactors merged) others (c * merged.coeff)) := by
  have keyed : f.face.hasKey = true := keyed
  have found : removeFactor f.face.key factors = some (g, others) := found
  rw [mergeWithin]
  simp only [keyed, found, mergeAlike, bind_assoc]
  rfl

theorem unit_of_coeff {e : Expr} (one : e.coeff = 1) : e.unit = e := by
  cases e with
  | foreign => rfl
  | _ =>
    simp only [coeff] at one
    simp [unit, withCoeff, one]

theorem size_pos (e : Expr) : 0 < e.size := by
  cases e <;> simp [size]

theorem length_le_sizeAll (es : List Expr) : es.length ≤ sizeAll es := by
  induction es with
  | nil => simp [sizeAll]
  | cons e es ih =>
    have positive := e.size_pos
    simp only [List.length_cons, sizeAll]
    omega

theorem length_factors_le (e : Expr) : e.factors.length ≤ e.size := by
  cases e with
  | product c factors =>
    have bound := length_le_sizeAll factors
    have sorted := (sortFactors_perm factors).length_eq
    simp only [Expr.factors, size]
    omega
  | number => simp [Expr.factors]
  | _ => simp [Expr.factors, size]

/-- The work limit is enough to merge every two like factors once. -/
theorem enough_work {a b : Expr} : 2 * (a.factors.length + b.factors.length) + 5 ≤ workLimit a b := by
  have left := length_factors_le a
  have right := length_factors_le b
  have limit : 16 * (a.size + b.size + 2) ≤ workLimit a b := by
    unfold workLimit
    exact Nat.le_mul_of_pos_right _ (by omega)
  omega

theorem factors_withCoeff (e : Expr) (c : Rat) : (e.withCoeff c).factors = e.factors := by
  cases e <;> rfl

theorem mem_factors_scale {e f : Expr} {c : ℚ} (member : f ∈ (e.scale c).factors) : f ∈ e.factors := by
  unfold scale at member
  split at member
  · cases member
  · rwa [factors_withCoeff] at member

theorem mem_of_mem_factors_ofFactors {factors : List Expr} (proper : ∀ f ∈ factors, IsFactor f) {c : ℚ}
    {f : Expr} (member : f ∈ (ofFactors factors c).factors) : f ∈ factors := by
  unfold ofFactors at member
  split at member
  · cases member
  · split at member
    · cases member
    next g =>
      have proper := proper g List.mem_cons_self
      have same : (g.withCoeff c).unit = g := by
        rw [Expr.unit, withCoeff_withCoeff]
        exact unit_of_coeff proper.unit
      cases g with
      | number => cases proper.notNumber
      | product => cases proper.notProduct
      | _ =>
        obtain rfl := List.mem_singleton.mp member
        exact List.mem_singleton.mpr same
    · exact (sortFactors_perm _).mem_iff.mp member

/-- A property that products keep: numbers have it, coefficients do not matter, and a product has it
exactly if its factors do. -/
structure KeptByProducts (kept : Expr → Prop) : Prop where
  number : ∀ c, kept (number c)
  withCoeff : ∀ {e}, kept e → ∀ c, kept (e.withCoeff c)
  product : ∀ {c factors}, (∀ f ∈ factors, kept f) → kept (product c factors)
  each : ∀ {c factors}, kept (Expr.product c factors) → ∀ f ∈ factors, kept f

namespace KeptByProducts

variable {kept : Expr → Prop} (keeps : KeptByProducts kept)
include keeps

theorem scale {e : Expr} (holds : kept e) (c : ℚ) : kept (e.scale c) := by
  unfold Expr.scale
  split
  · exact keeps.number 0
  · exact keeps.withCoeff holds _

theorem factors {e : Expr} (holds : kept e) : ∀ f ∈ e.factors, kept f := by
  intro f member
  cases e with
  | number => cases member
  | product c factors => exact keeps.each holds f ((sortFactors_perm _).mem_iff.mp member)
  | _ =>
    obtain rfl := List.mem_singleton.mp member
    exact keeps.withCoeff holds 1

theorem of_factors {e : Expr} (each : ∀ f ∈ e.factors, kept f) : kept e := by
  have single (only : e.factors = [e.unit]) : kept e := by
    have whole := keeps.withCoeff (each e.unit (only ▸ List.mem_singleton_self _)) e.coeff
    rwa [Expr.unit, withCoeff_withCoeff, withCoeff_coeff] at whole
  cases e with
  | number c => exact keeps.number c
  | product c factors => exact keeps.product fun f member => each f ((sortFactors_perm _).mem_iff.mpr member)
  | _ => exact single rfl

theorem ofFactors {factors : List Expr} (each : ∀ f ∈ factors, kept f) (c : ℚ) :
    kept (ofFactors factors c) := by
  unfold Expr.ofFactors
  split
  · exact keeps.number 0
  · split
    · exact keeps.number c
    next f => exact keeps.withCoeff (each f List.mem_cons_self) c
    · exact keeps.product each

end KeptByProducts

/-- A kind of expressions, with the value of each at every point where it is defined. Some of its factors
may stop a product, because something in them cannot be written out. -/
structure Kind (Point K : Type) where
  kept : Expr → Prop
  stops : Expr → Prop
  defined : Point → Expr → Prop
  value : Point → Expr → K

namespace Kind

variable {Point K : Type} [Field K]

structure Factor (kind : Kind Point K) (f : Expr) : Prop where
  formed : f.WellFormed
  proper : IsFactor f
  kept : kind.kept f

/-- Two like factors have been merged into at most one factor, of the value of both. -/
structure Combines (kind : Kind Point K) (g f merged : Expr) : Prop where
  coeff : merged.coeff = 1
  few : (mergedFactors merged).length ≤ 1
  factor : ∀ h ∈ mergedFactors merged, kind.Factor h
  stops : ∀ h ∈ mergedFactors merged, kind.stops h → kind.stops f ∨ kind.stops g
  defined : ∀ i, kind.defined i f → kind.defined i g → ∀ h ∈ mergedFactors merged, kind.defined i h
  value : ∀ i, kind.defined i f → kind.defined i g →
    ((mergedFactors merged).map (kind.value i)).prod = kind.value i g * kind.value i f

/-- Values multiply, and merging two like factors keeps them. -/
structure Lawful (kind : Kind Point K) : Prop where
  kept : KeptByProducts kind.kept
  defined : ∀ i, KeptByProducts (kind.defined i)
  adds : ∀ i, AddsUp (kind.value i)
  product : ∀ i c factors, kind.value i (Expr.product c factors) = c * (factors.map (kind.value i)).prod
  keyless : ∀ f, f.hasBaseKey = false → kind.stops f
  alike : ∀ (n : Nat) (g f : Expr), kind.Factor g → kind.Factor f → f.baseKey = g.baseKey →
    (mergeAlike (n + 3) g f = .error .unsupported ∧ (kind.stops f ∨ kind.stops g)) ∨
      ∃ merged, mergeAlike (n + 3) g f = .ok merged ∧ kind.Combines g f merged

/-- What merging factors comes to: factors of the same value, no two alike. -/
structure MergesTo (kind : Kind Point K) (pending : List Expr) (factors merged : List (String × Expr)) :
    Prop where
  factor : ∀ f ∈ merged, kind.Factor f.2
  stops : ∀ f ∈ merged, kind.stops f.2 → ∃ g ∈ pending ++ factors.map (·.2), kind.stops g
  defined : ∀ i, (∀ f ∈ pending, kind.defined i f) → (∀ f ∈ factors, kind.defined i f.2) →
    ∀ f ∈ merged, kind.defined i f.2
  value : ∀ i, (∀ f ∈ pending, kind.defined i f) → (∀ f ∈ factors, kind.defined i f.2) →
    (merged.map fun f => kind.value i f.2).prod =
      (pending.map (kind.value i)).prod * (factors.map fun f => kind.value i f.2).prod

variable {kind : Kind Point K}

/-- The first factor goes to the others when none of them is alike. -/
theorem MergesTo.fresh {f : Expr} {pending : List Expr} {factors merged : List (String × Expr)}
    (merges : kind.MergesTo pending (factors ++ [(f.baseKey, f)]) merged) :
    kind.MergesTo (f :: pending) factors merged := by
  have definedAll {i : Point} (first : ∀ h ∈ f :: pending, kind.defined i h)
      (second : ∀ h ∈ factors, kind.defined i h.2) :
      ∀ h ∈ factors ++ [(f.baseKey, f)], kind.defined i h.2 := by
    intro h member
    rcases List.mem_append.mp member with old | new
    · exact second h old
    · obtain rfl := List.mem_singleton.mp new
      exact first f List.mem_cons_self
  refine ⟨merges.factor, fun h member stops => ?_, fun i first second => ?_, fun i first second => ?_⟩
  · obtain ⟨g, inside, stops⟩ := merges.stops h member stops
    refine ⟨g, ?_, stops⟩
    simp only [List.map_append, List.map_cons, List.map_nil, List.mem_append, List.mem_cons] at inside ⊢
    tauto
  · exact merges.defined i (fun g later => first g (List.mem_cons_of_mem _ later))
      (definedAll first second)
  · rw [merges.value i (fun g later => first g (List.mem_cons_of_mem _ later)) (definedAll first second)]
    simp only [List.map_append, List.map_cons, List.map_nil, List.prod_append, List.prod_cons,
      List.prod_nil]
    ring

/-- What stops a product after two like factors have been merged stopped it before. -/
theorem Combines.stopped {f g power : Expr} {pending : List Expr} {factors others : List (String × Expr)}
    (combines : kind.Combines g f power) (perm : factors.Perm ((f.baseKey, g) :: others))
    (stopped : ∃ h ∈ pending ++ mergedFactors power ++ others.map (·.2), kind.stops h) :
    ∃ h ∈ f :: pending ++ factors.map (·.2), kind.stops h := by
  have earlier {h : Expr} (stops : kind.stops h)
      (known : h = f ∨ h ∈ pending ∨ h = g ∨ h ∈ others.map (·.2)) :
      ∃ h ∈ f :: pending ++ factors.map (·.2), kind.stops h := by
    refine ⟨h, ?_, stops⟩
    rw [List.mem_append, List.mem_cons, (perm.map (·.2)).mem_iff, List.map_cons, List.mem_cons]
    tauto
  obtain ⟨h, among, stops⟩ := stopped
  rcases List.mem_append.mp among with left | right
  · rcases List.mem_append.mp left with old | new
    · exact earlier stops (.inr (.inl old))
    · rcases combines.stops h new stops with first | second
      · exact earlier first (.inl rfl)
      · exact earlier second (.inr (.inr (.inl rfl)))
  · exact earlier stops (.inr (.inr (.inr right)))

/-- The first factor and a like one are replaced by what they merge into. -/
theorem MergesTo.alike {f g power : Expr} {pending : List Expr}
    {factors others merged : List (String × Expr)} (combines : kind.Combines g f power)
    (perm : factors.Perm ((f.baseKey, g) :: others))
    (merges : kind.MergesTo (pending ++ mergedFactors power) others merged) :
    kind.MergesTo (f :: pending) factors merged := by
  have inside : (f.baseKey, g) ∈ factors := perm.mem_iff.mpr List.mem_cons_self
  have others_mem {h : String × Expr} (member : h ∈ others) : h ∈ factors :=
    perm.mem_iff.mpr (List.mem_cons_of_mem _ member)
  have pendingDefined {i : Point} (first : ∀ h ∈ f :: pending, kind.defined i h)
      (second : ∀ h ∈ factors, kind.defined i h.2) :
      ∀ h ∈ pending ++ mergedFactors power, kind.defined i h := by
    intro h member
    rcases List.mem_append.mp member with old | new
    · exact first h (List.mem_cons_of_mem _ old)
    · exact combines.defined i (first f List.mem_cons_self) (second _ inside) h new
  refine ⟨merges.factor, fun h member stops => ?_, fun i first second => ?_, fun i first second => ?_⟩
  · exact combines.stopped perm (merges.stops h member stops)
  · exact merges.defined i (pendingDefined first second) fun h member => second h (others_mem member)
  · have split : (factors.map fun h => kind.value i h.2).prod =
        kind.value i g * (others.map fun h => kind.value i h.2).prod := by
      rw [(perm.map fun h => kind.value i h.2).prod_eq, List.map_cons, List.prod_cons]
    rw [merges.value i (pendingDefined first second) fun h member => second h (others_mem member),
      List.map_append, List.prod_append,
      combines.value i (first f List.mem_cons_self) (second _ inside), split, List.map_cons, List.prod_cons]
    ring

/-- Merging factors of a lawful kind returns what they merge to, or one of them stops it. -/
theorem Lawful.merges (lawful : kind.Lawful) {n : Nat} {pending : List Expr}
    {factors : List (String × Expr)} (c : ℚ) (enough : 2 * pending.length + factors.length + 4 ≤ n)
    (each : ∀ f ∈ pending, kind.Factor f) (before : Merged factors)
    (eachBefore : ∀ f ∈ factors, kind.Factor f.2) :
    (mergeWithin n pending factors c = .error .unsupported ∧
        ∃ f ∈ pending ++ factors.map (·.2), kind.stops f) ∨
      ∃ merged, mergeWithin n pending factors c = .ok (merged, c) ∧
        kind.MergesTo pending factors merged := by
  induction n generalizing pending factors with
  | zero => omega
  | succ n ih =>
    cases pending with
    | nil =>
      refine .inr ⟨factors, rfl, eachBefore, fun f member stops => ⟨f.2, ?_, stops⟩,
        fun i _ second => second, fun i _ _ => by simp⟩
      exact List.mem_map_of_mem member
    | cons f pending =>
      have factorF := each f List.mem_cons_self
      have eachRest : ∀ g ∈ pending, kind.Factor g :=
        fun g later => each g (List.mem_cons_of_mem _ later)
      simp only [List.length_cons] at enough
      cases keyed : f.hasBaseKey with
      | false =>
        exact .inl ⟨mergeWithin_keyless keyed, f, List.mem_append_left _ List.mem_cons_self,
          lawful.keyless f keyed⟩
      | true =>
        cases found : removeFactor f.baseKey factors with
        | none =>
          have after := before.append (removeFactor_none found) keyed ⟨factorF.formed, factorF.proper⟩
          have eachAfter : ∀ g ∈ factors ++ [(f.baseKey, f)], kind.Factor g.2 := by
            intro g member
            rcases List.mem_append.mp member with old | new
            · exact eachBefore g old
            · obtain rfl := List.mem_singleton.mp new
              exact factorF
          rw [mergeWithin_fresh keyed found]
          rcases ih (by simp only [List.length_append, List.length_singleton]; omega) eachRest after
            eachAfter with ⟨failed, g, among, stops⟩ | ⟨merged, returned, merges⟩
          · refine .inl ⟨failed, g, ?_, stops⟩
            simp only [List.map_append, List.map_cons, List.map_nil, List.mem_append, List.mem_cons] at among ⊢
            tauto
          · exact .inr ⟨merged, returned, merges.fresh⟩
        | some found' =>
          obtain ⟨g, others⟩ := found'
          obtain ⟨perm, sub⟩ := removeFactor_some found
          have member : (f.baseKey, g) ∈ factors := perm.mem_iff.mpr List.mem_cons_self
          have length := perm.length_eq
          simp only [List.length_cons] at length
          obtain ⟨m, rfl⟩ : ∃ m, n = m + 3 := ⟨n - 3, by omega⟩
          rw [mergeWithin_found keyed found]
          rcases lawful.alike m g f (eachBefore _ member) factorF (before.keyed _ member).1 with
            ⟨failed, stops⟩ | ⟨power, combined, combines⟩
          · refine .inl ⟨by rw [failed]; rfl, ?_⟩
            rcases stops with first | second
            · exact ⟨f, List.mem_append_left _ List.mem_cons_self, first⟩
            · exact ⟨g, List.mem_append_right _ (List.mem_map_of_mem member), second⟩
          · have eachNext : ∀ h ∈ pending ++ mergedFactors power, kind.Factor h := by
              intro h inside
              rcases List.mem_append.mp inside with old | new
              · exact eachRest h old
              · exact combines.factor h new
            have few := combines.few
            rw [combined]
            change (mergeWithin (m + 3) (pending ++ mergedFactors power) others (c * power.coeff) = _ ∧ _) ∨
              ∃ merged, mergeWithin (m + 3) (pending ++ mergedFactors power) others
                (c * power.coeff) = _ ∧ _
            rw [combines.coeff, mul_one]
            rcases ih (by simp only [List.length_append]; omega) eachNext (before.sublist sub)
              (fun h inside => eachBefore h (sub.subset inside)) with
              ⟨failed, h, inside, stops⟩ | ⟨merged, returned, merges⟩
            · exact .inl ⟨failed, combines.stopped perm ⟨h, inside, stops⟩⟩
            · exact .inr ⟨merged, returned, merges.alike combines perm⟩

structure Multiplies (kind : Kind Point K) (a b r : Expr) : Prop where
  kept : kind.kept r
  stops : ∀ f ∈ r.factors, kind.stops f → ∃ g ∈ a.factors ++ b.factors, kind.stops g
  defined : ∀ i, kind.defined i a → kind.defined i b → kind.defined i r
  value : ∀ i, kind.defined i a → kind.defined i b → kind.value i r = kind.value i a * kind.value i b

namespace Lawful

variable (lawful : kind.Lawful)
include lawful

theorem factor {e : Expr} (formed : e.WellFormed) (kept : kind.kept e) : ∀ f ∈ e.factors, kind.Factor f :=
  fun f member => ⟨(formed.factors f member).1, (formed.factors f member).2, lawful.kept.factors kept f member⟩

theorem value_factors (i : Point) (e : Expr) (formed : e.WellFormed) :
    kind.value i e = e.coeff * (e.factors.map (kind.value i)).prod := by
  cases e with
  | number c => rw [(lawful.adds i).number, Expr.factors, List.map_nil, List.prod_nil, mul_one, coeff]
  | product c factors =>
    rw [Expr.factors, ((sortFactors_perm factors).map (kind.value i)).prod_eq, lawful.product, coeff]
  | foreign => exact formed.elim
  | _ => simpa [Expr.factors] using (lawful.adds i).unit _

theorem value_ofFactors (i : Point) {factors : List Expr} (unit : ∀ f ∈ factors, f.coeff = 1) (c : ℚ) :
    kind.value i (ofFactors factors c) = c * (factors.map (kind.value i)).prod := by
  unfold ofFactors
  split
  next zero => rw [(lawful.adds i).of_isZero rfl, zero, Rat.cast_zero, zero_mul]
  next =>
    split
    · rw [(lawful.adds i).number, List.map_nil, List.prod_nil, mul_one]
    next f =>
      rw [(lawful.adds i).withCoeff, unit_of_coeff (unit f List.mem_cons_self), List.map_cons,
        List.map_nil, List.prod_singleton]
    · exact lawful.product i c _

variable [CharZero K]

theorem value_scale (i : Point) (e : Expr) (c : ℚ) :
    kind.value i (e.scale c) = c * kind.value i e := by
  unfold Expr.scale
  split
  next zero => rw [zero, Rat.cast_zero, zero_mul, (lawful.adds i).of_isZero rfl]
  next =>
    rw [(lawful.adds i).withCoeff, (lawful.adds i).unit e, Rat.cast_mul]
    ring

theorem multiplies_scale {a b : Expr} {c : ℚ} (kept : kind.kept b)
    (value : ∀ i, kind.value i a = c) : kind.Multiplies a b (b.scale c) where
  kept := lawful.kept.scale kept c
  stops f member stops := ⟨f, List.mem_append_right _ (mem_factors_scale member), stops⟩
  defined i _ defined := (lawful.defined i).scale defined c
  value i _ _ := by rw [lawful.value_scale, value]

/-- A product of expressions of the kind is returned with the right value, or a factor stops it. -/
theorem mulWithin {n : Nat} {a b : Expr} (formedA : a.WellFormed) (formedB : b.WellFormed)
    (keptA : kind.kept a) (keptB : kind.kept b)
    (enough : 2 * (a.factors.length + b.factors.length) + 5 ≤ n) :
    (mulWithin n a b = .error .unsupported ∧ ∃ f ∈ a.factors ++ b.factors, kind.stops f) ∨
      ∃ r, Expr.mulWithin n a b = .ok r ∧ kind.Multiplies a b r := by
  obtain ⟨n, rfl⟩ : ∃ m, n = m + 1 := ⟨n - 1, by omega⟩
  unfold Expr.mulWithin
  split
  next zero =>
    refine .inr ⟨_, rfl, lawful.kept.number 0, by simp [Expr.zero, Expr.factors],
      fun i _ _ => (lawful.defined i).number 0, fun i _ _ => ?_⟩
    rw [(lawful.adds i).of_isZero rfl]
    rcases Bool.or_eq_true_iff.mp zero with left | right
    · rw [(lawful.adds i).of_isZero left, zero_mul]
    · rw [(lawful.adds i).of_isZero right, mul_zero]
  split
  next c b => exact .inr ⟨_, rfl, lawful.multiplies_scale keptB fun i => (lawful.adds i).number c⟩
  next c _ _ =>
    have turned := lawful.multiplies_scale keptA fun i => (lawful.adds i).number c
    refine .inr ⟨_, rfl, turned.kept, fun f member stops => ?_, fun i definedA definedB =>
      turned.defined i definedB definedA, fun i definedA definedB => ?_⟩
    · obtain ⟨g, among, stops⟩ := turned.stops f member stops
      exact ⟨g, List.mem_append.mpr (List.mem_append.mp among).symm, stops⟩
    · rw [turned.value i definedB definedA, mul_comm]
  next =>
    have factor : ∀ f ∈ a.factors ++ b.factors, kind.Factor f := by
      intro f member
      rcases List.mem_append.mp member with left | right
      · exact lawful.factor formedA keptA f left
      · exact lawful.factor formedB keptB f right
    have definedAll {i : Point} (definedA : kind.defined i a) (definedB : kind.defined i b) :
        ∀ f ∈ a.factors ++ b.factors, kind.defined i f := by
      intro f member
      rcases List.mem_append.mp member with left | right
      · exact (lawful.defined i).factors definedA f left
      · exact (lawful.defined i).factors definedB f right
    have work : 2 * (a.factors ++ b.factors).length + ([] : List (String × Expr)).length + 4 ≤ n := by
      simp only [List.length_append, List.length_nil]
      omega
    rcases lawful.merges (a.coeff * b.coeff) work factor ⟨by simp, by simp, by simp⟩ (by simp)
      with ⟨failed, f, member, stops⟩ | ⟨merged, returned, merges⟩
    · exact .inl ⟨by rw [failed]; rfl, f, by simpa using member, stops⟩
    · have proper : ∀ f ∈ merged.map (·.2), IsFactor f := by
        intro f member
        obtain ⟨g, inside, rfl⟩ := List.mem_map.mp member
        exact (merges.factor g inside).proper
      refine .inr ⟨ofFactors (merged.map (·.2)) (a.coeff * b.coeff), by rw [returned]; rfl, ?_, ?_, ?_, ?_⟩
      · refine lawful.kept.ofFactors (fun f member => ?_) _
        obtain ⟨g, inside, rfl⟩ := List.mem_map.mp member
        exact (merges.factor g inside).kept
      · intro f member stops
        obtain ⟨g, inside, rfl⟩ := List.mem_map.mp (mem_of_mem_factors_ofFactors proper member)
        simpa using merges.stops g inside stops
      · intro i definedA definedB
        refine (lawful.defined i).ofFactors (fun f member => ?_) _
        obtain ⟨g, inside, rfl⟩ := List.mem_map.mp member
        exact merges.defined i (definedAll definedA definedB) (by simp) g inside
      · intro i definedA definedB
        have value := merges.value i (definedAll definedA definedB) (by simp)
        rw [lawful.value_ofFactors i fun f member => (proper f member).unit, List.map_map, lawful.value_factors i a formedA,
          lawful.value_factors i b formedB]
        change _ * (merged.map fun f => kind.value i f.2).prod = _
        rw [value, List.map_append, List.prod_append, List.map_nil, List.prod_nil, Rat.cast_mul]
        ring

theorem mul {a b : Expr} (formedA : a.WellFormed) (formedB : b.WellFormed) (keptA : kind.kept a)
    (keptB : kind.kept b) :
    (mul a b = .error .unsupported ∧ ∃ f ∈ a.factors ++ b.factors, kind.stops f) ∨
      ∃ r, Expr.mul a b = .ok r ∧ kind.Multiplies a b r :=
  lawful.mulWithin formedA formedB keptA keptB enough_work

end Lawful

end Kind

end ExactAlgebra.Expr
