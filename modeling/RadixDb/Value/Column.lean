import RadixDb.Lib.OrderedMap
import RadixDb.Value.SqlOrder

/-!
# The values of one column

The order of all values is not transitive, because of integers, floats and decimals of nearly the
same value (`Value.disagree_two_pow_60`). But a column holds values of one type, and it is searched
for one value at a time: **the values of a column and one further value always have places in one
linear order** (`follows_insert`). Which order it is depends on the further value. A float column is
searched for a decimal by the numbers printed for the floats, and for an integer by their exact
values.

Values of a column that are equal may differ as data: `1.0` and `1.00`, the two zeros, the NaNs. No
comparison with any value tells them apart (`ordCmp_congr`).
-/

namespace RadixDb

def Number.dataType : Number → DataType
  | .integer _ => .integer
  | .float _ => .float
  | .decimal _ _ => .decimal

namespace Value

/-- The values of valid shape that a column of type `type` may hold. -/
def ofColumn (json : Json) (type : DataType) : Set Value :=
  {v | v.validateShape json = .ok () ∧ (v.isNull = true ∨ v.dataType = type)}

variable {std : LowerExp} {json : Json} {type : DataType} {a b p : Value}

theorem dataType_of_number {n : Number} (h : a.number = some n) : a.dataType = n.dataType := by
  cases a with
  | integer i => cases h; rfl
  | float f => cases h; rfl
  | extension data =>
    obtain ⟨parts, hp, rfl⟩ := Option.map_eq_some_iff.mp h
    unfold asDecimalParts at hp
    dsimp only at hp
    split_ifs at hp with hd
    rw [dataType, hd.1]
    rfl
  | _ => cases h

theorem dataType_of_mem {n : Number} (ha : a ∈ insert p (ofColumn json type))
    (h : a.number = some n) : n.dataType = p.dataType ∨ n.dataType = type := by
  rw [← dataType_of_number h]
  rcases ha with rfl | ⟨-, hnull | htype⟩
  · exact .inl rfl
  · cases (isNull_of_number h).symm.trans hnull
  · exact .inr htype

/-- **The values of a column and one further value are in a linear order.** -/
theorem follows_insert (std : LowerExp) (type : DataType) (hp : p.validateShape json = .ok ()) :
    ∃ place : Value → ℕ ×ₗ (NumberKey ×ₗ Bytes),
      Follows (ordCmp std) place (insert p (ofColumn json type)) := by
  have hvalid : ∀ a ∈ insert p (ofColumn json type), a.validateShape json = .ok () := by
    rintro a (rfl | ha)
    · exact hp
    · exact ha.1
  by_cases hmix : p.dataType = .decimal ∧ type = .float ∨ p.dataType = .float ∧ type = .decimal
  · -- there are no integers
    have hint : ∀ a ∈ insert p (ofColumn json type), ∀ i, a.number ≠ some (.integer i) := by
      intro a ha i h
      rcases dataType_of_mem ha h with hd | hd <;> rcases hmix with ⟨h1, h2⟩ | ⟨h1, h2⟩ <;>
        simp [Number.dataType, h1, h2] at hd
    refine ⟨keyBy (Number.key std), fun a ha b hb => ordCmp_compares (hvalid a ha) (hvalid b hb)
      fun x y hx hy => ?_⟩
    refine Number.compare_compares (number_bounded hx) (number_bounded hy) fun i f h => ?_
    rcases h with ⟨rfl, -⟩ | ⟨-, rfl⟩
    · exact absurd hx (hint a ha i)
    · exact absurd hy (hint b hb i)
  · refine ⟨keyBy Number.exactKey, fun a ha b hb => ordCmp_compares (hvalid a ha) (hvalid b hb)
      fun x y hx hy => ?_⟩
    refine Number.compare_compares_exact (number_bounded hx) (number_bounded hy) fun u s f => ?_
    -- a decimal and a float are of the two types
    have htypes : ∀ {c d : Value} {m n : Number}, c ∈ insert p (ofColumn json type) →
        d ∈ insert p (ofColumn json type) → c.number = some m → d.number = some n →
        m.dataType = .decimal → n.dataType ≠ .float := by
      intro c d m n hc hd hm hn hmd hnf
      refine hmix ?_
      rcases dataType_of_mem hc hm with h1 | h1 <;> rcases dataType_of_mem hd hn with h2 | h2 <;>
        rw [hmd] at h1 <;> rw [hnf] at h2
      · rw [← h1] at h2
        cases h2
      · exact .inl ⟨h1.symm, h2.symm⟩
      · exact .inr ⟨h2.symm, h1.symm⟩
      · rw [← h1] at h2
        cases h2
    constructor
    · rintro ⟨rfl, rfl⟩
      exact htypes ha hb hx hy rfl rfl
    · rintro ⟨rfl, rfl⟩
      exact htypes hb ha hy hx rfl rfl

/-- Equal values that are not numbers are one value, or both NULL. -/
theorem eq_of_ordCmp_eq (ha : a.validateShape json = .ok ()) (hb : b.validateShape json = .ok ())
    (h : a.ordCmp std b = .eq) : a.isNull = true ∧ b.isNull = true ∨
      (∃ x y, a.number = some x ∧ b.number = some y) ∨ a = b := by
  have heq := (ordCmp_eq_iff ha hb).mp h
  rcases ordCmp_cases std a b with ⟨hna, hnb, -⟩ | ⟨-, -, -, he⟩ | ⟨-, -, -, he⟩ |
    ⟨hna, -, ⟨x, y, hx, hy, -⟩ | ⟨-, -, -, he⟩ | ⟨hnone, hrank, -⟩⟩
  · exact .inl ⟨hna, hnb⟩
  · cases he.symm.trans heq
  · cases he.symm.trans heq
  · exact .inr (.inl ⟨x, y, hx, hy⟩)
  · cases he.symm.trans heq
  · refine .inr (.inr ?_)
    unfold Value.eq at heq
    rw [compareCanonicalNumeric_none std hnone] at heq
    rcases same_type hna hnone hrank with ⟨s, t, rfl, rfl⟩ | ⟨x, y, rfl, rfl⟩ |
      ⟨t, u, rfl, rfl⟩ | ⟨l, r, rfl, rfl, -, -⟩
    all_goals rw [beq_iff_eq.mp heq]

theorem compare_of_numbers {x z : Number} (hx : a.number = some x) (hz : p.number = some z) :
    a.compare std p = .ok (a.ordCmp std p) := by
  unfold compare
  rw [isNull_of_number hx, isNull_of_number hz, compareCanonicalNumeric_eq, hx, hz,
    ordCmp_number hx hz]
  rfl

/-- **Equal values of a column cannot be told apart.** -/
theorem ordCmp_congr (ha : a ∈ ofColumn json type) (hb : b ∈ ofColumn json type)
    (hp : p.validateShape json = .ok ()) (h : a.ordCmp std b = .eq) :
    a.ordCmp std p = b.ordCmp std p := by
  obtain ⟨place, hplace⟩ := follows_insert std type hp
  have hap := hplace a (.inr ha) p (.inl rfl)
  rw [(hplace a (.inr ha) b (.inr hb)).eq_eq.mp h] at hap
  exact hap.inj (hplace b (.inr hb) p (.inl rfl))

end Value

end RadixDb
