import Mathlib

/-!
# Rounding to the points of a grid

A number format is a grid: a strictly increasing sequence of points, of which the format can hold
only these. Rounding a number takes the nearest point, and of two equally near points the one with
the even index.

Two facts about rounding carry every result on printing and parsing: **rounding is monotone, and it
leaves the points where they are** (`nearest_mono`, `nearest_point`). Numbers that round to one
point therefore form an interval around it.
-/

set_option autoImplicit false

/-- Points in increasing order, from zero, and for each number the last point that is not above. -/
structure Grid (K : Type) [Field K] [LinearOrder K] where
  point : ℕ → K
  strictMono : StrictMono point
  zero : point 0 = 0
  below : K → ℕ
  point_below : ∀ {x}, 0 ≤ x → point (below x) ≤ x
  lt_point_below : ∀ {x}, 0 ≤ x → x < point (below x + 1)

namespace Grid

variable {K : Type} [Field K] [LinearOrder K] (g : Grid K)

/-- The index of the point nearest to `x`, and of two equally near points the even one. -/
def nearest (x : K) : ℕ :=
  let n := g.below x
  if x - g.point n < g.point (n + 1) - x then n
  else if g.point (n + 1) - x < x - g.point n then n + 1
  else if n % 2 = 0 then n else n + 1

variable {g} {x y : K} {n : ℕ}

theorem below_eq (hx : 0 ≤ x) (hle : g.point n ≤ x) (hlt : x < g.point (n + 1)) :
    g.below x = n := by
  have h1 : g.point (g.below x) < g.point (n + 1) := (g.point_below hx).trans_lt hlt
  have h2 : g.point n < g.point (g.below x + 1) := hle.trans_lt (g.lt_point_below hx)
  have h1' := g.strictMono.lt_iff_lt.mp h1
  have h2' := g.strictMono.lt_iff_lt.mp h2
  omega

theorem below_mono (hx : 0 ≤ x) (hxy : x ≤ y) : g.below x ≤ g.below y := by
  have h : g.point (g.below x) < g.point (g.below y + 1) :=
    ((g.point_below hx).trans hxy).trans_lt (g.lt_point_below (hx.trans hxy))
  have h' := g.strictMono.lt_iff_lt.mp h
  omega

theorem below_le_nearest : g.below x ≤ g.nearest x := by
  unfold nearest
  dsimp only
  split_ifs <;> omega

theorem nearest_le_succ : g.nearest x ≤ g.below x + 1 := by
  unfold nearest
  dsimp only
  split_ifs <;> omega

variable [IsStrictOrderedRing K]

/-- Between two points, what rounds up lies above what rounds down. -/
theorem nearest_mono (hx : 0 ≤ x) (hxy : x ≤ y) : g.nearest x ≤ g.nearest y := by
  rcases (below_mono hx hxy).lt_or_eq with hlt | heq
  · exact nearest_le_succ.trans (hlt.trans_le below_le_nearest)
  · unfold nearest
    dsimp only
    rw [heq]
    split_ifs
    all_goals first
      | omega
      | (exfalso; linarith)

theorem nearest_point (n : ℕ) : g.nearest (g.point n) = n := by
  have hx : 0 ≤ g.point n := g.zero ▸ g.strictMono.monotone (Nat.zero_le n)
  have hlt := g.strictMono (Nat.lt_succ_self n)
  have hb : g.below (g.point n) = n := below_eq hx le_rfl hlt
  unfold nearest
  rw [hb, if_pos]
  rw [sub_self]
  exact sub_pos.mpr hlt

/-- What lies below a point, but nearer to it than half the way down, rounds to it. -/
theorem nearest_eq_of_below (hx : 0 ≤ x) (hle : x ≤ g.point (n + 1))
    (hnear : g.point (n + 1) - x < x - g.point n) : g.nearest x = n + 1 := by
  rcases hle.lt_or_eq with hlt | rfl
  · have hn : g.point n < x := by linarith
    have hb : g.below x = n := below_eq hx hn.le hlt
    unfold nearest
    rw [hb, if_neg (by linarith), if_pos hnear]
  · exact nearest_point (n + 1)

theorem half_le_of_nearest (hx : 0 ≤ x) (h : g.nearest x = n + 1) :
    g.point n + g.point (n + 1) ≤ 2 * x := by
  by_contra hlt
  by_cases hx' : g.point n ≤ x
  · have hb : g.below x = n := below_eq hx hx' (by linarith)
    unfold nearest at h
    rw [hb, if_pos (by linarith)] at h
    omega
  · have hmono := nearest_mono (g := g) hx (not_le.mp hx').le
    rw [h, nearest_point] at hmono
    omega

theorem le_half_of_nearest (hx : 0 ≤ x) (h : g.nearest x = n) :
    2 * x ≤ g.point n + g.point (n + 1) := by
  by_contra hlt
  by_cases hx' : x < g.point (n + 1)
  · have hb : g.below x = n := below_eq hx (by linarith) hx'
    unfold nearest at h
    rw [hb, if_neg (by linarith), if_pos (by linarith)] at h
    omega
  · have hp : 0 ≤ g.point (n + 1) := g.zero ▸ g.strictMono.monotone (Nat.zero_le _)
    have hmono := nearest_mono (g := g) hp (not_lt.mp hx')
    rw [h, nearest_point] at hmono
    omega

end Grid
