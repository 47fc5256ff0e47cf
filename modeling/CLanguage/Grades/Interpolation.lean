import CLanguage.Lib.PiecewiseLinear
import CLanguage.Grades.Quantiles

/-!
# Interpolation of quantiles

`interpolatequantile` is to read a score off the piecewise linear function through the
buckets of a table, each placed at the percentage of the scores before it. Its loop stops
at the last bucket, before the interval that ends there has been looked at, and so it
returns the last score on the whole of this interval.
-/

namespace CLanguage.Grades

open CLanguage.Lib

variable {n : ℕ} {q : ℚ} {fp : Freqs} {freqs : List Freqs} {b : Quantile} {bs : List Quantile}

/-- The loop of `interpolatequantile` at a bucket, with the point before it, and what follows it. -/
def interpolateLoop (n : ℕ) (q : ℚ) : ℚ → ℚ → Quantile → List Quantile → ℚ
  | _, _, fp, [] => fp.score
  | pq, ps, fp, next :: freqs =>
    let nq : ℚ := fp.numless * 100 / n
    let ns := fp.score
    if pq ≤ q ∧ q < nq then
      let qdiff := nq - pq
      let sdiff := ns - ps
      if qdiff = 0 then ps else ps + sdiff / qdiff * (q - pq)
    else interpolateLoop n q nq ns next freqs

/-- `interpolatequantile` -/
def interpolatequantile (freqs : List Quantile) (n : ℕ) (q : ℚ) : ℚ :=
  match freqs with
  | [] => 0
  | fp :: freqs => interpolateLoop n q 0 fp.score fp freqs

/-! ### Points -/

/-- The point of a bucket: the percentage of the scores before it, and its score. -/
def Quantile.point (n : ℕ) (b : Quantile) : ℚ × ℚ := (b.numless * 100 / n, b.score)

/-- The function that the table describes. -/
def quantileFunction (n : ℕ) : List Quantile → ℚ → ℚ
  | [] => fun _ => 0
  | b :: bs => polyline (b.point n) (bs.map (Quantile.point n))

/-- The points of a table rise. -/
theorem rising_points (hn : 0 < n) (increasing : freqs.Pairwise fun fp fp' => fp.score < fp'.score)
    (positive : ∀ fp ∈ freqs, 0 < fp.count) (sum : ℕ) :
    Rising ((fillQuantiles sum freqs).map (Quantile.point n)) := by
  have hpos : (0 : ℚ) < n := Nat.cast_pos.mpr hn
  induction freqs generalizing sum with
  | nil => exact List.Pairwise.nil
  | cons fp freqs ih =>
    obtain ⟨hfp, hfreqs⟩ := List.pairwise_cons.mp increasing
    obtain ⟨hcount, hcounts⟩ := List.forall_mem_cons.mp positive
    rw [fillQuantiles, List.map_cons]
    refine List.pairwise_cons.mpr ⟨fun x hx => ?_, ih hfreqs hcounts _⟩
    obtain ⟨b, hb, rfl⟩ := List.mem_map.mp hx
    obtain ⟨l, r, hsplit, hnumless, -⟩ := mem_fillQuantiles hb
    refine ⟨?_, hfp b.toFreqs (hsplit ▸ List.mem_append_right l List.mem_cons_self)⟩
    have hlt : (sum : ℚ) < b.numless := Nat.cast_lt.mpr (by omega)
    rw [Quantile.point, Quantile.point]
    dsimp only
    gcongr

/-! ### The loop -/

theorem interpolateLoop_cons (n : ℕ) (q : ℚ) (a : ℚ × ℚ) (fp next : Quantile)
    (freqs : List Quantile) :
    interpolateLoop n q a.1 a.2 fp (next :: freqs) =
      if a.1 ≤ q ∧ q < (fp.point n).1 then
        if (fp.point n).1 - a.1 = 0 then a.2 else line a (fp.point n) q
      else interpolateLoop n q (fp.point n).1 (fp.point n).2 next freqs := rfl

/-- A number lies in the last of the intervals between some points. -/
def InLast (ps : List (ℚ × ℚ)) (q : ℚ) : Prop :=
  ∃ l a b, ps = l ++ [a, b] ∧ a.1 ≤ q ∧ q < b.1

theorem inLast_pair (a b : ℚ × ℚ) : InLast [a, b] q ↔ a.1 ≤ q ∧ q < b.1 := by
  constructor
  · rintro ⟨l, c, d, h, hc, hd⟩
    obtain rfl : l = [] := by
      have hlength := congrArg List.length h
      simp only [List.length_cons, List.length_nil, List.length_append] at hlength
      exact List.length_eq_zero_iff.mp (by omega)
    obtain ⟨rfl, rfl⟩ : a = c ∧ b = d := by simpa using h
    exact ⟨hc, hd⟩
  · rintro ⟨ha, hb⟩
    exact ⟨[], a, b, rfl, ha, hb⟩

theorem inLast_cons (a b c : ℚ × ℚ) (ps : List (ℚ × ℚ)) :
    InLast (a :: b :: c :: ps) q ↔ InLast (b :: c :: ps) q := by
  constructor
  · rintro ⟨l, d, e, h, hd, he⟩
    cases l with
    | nil => simp at h
    | cons _ l => exact ⟨l, d, e, (List.cons.inj h).2, hd, he⟩
  · rintro ⟨l, d, e, h, hd, he⟩
    exact ⟨a :: l, d, e, by rw [h, List.cons_append], hd, he⟩

theorem not_inLast_single (a : ℚ × ℚ) : ¬ InLast [a] q := by
  rintro ⟨l, b, c, h, -⟩
  have hlength := congrArg List.length h
  simp only [List.length_cons, List.length_nil, List.length_append] at hlength
  omega

/-- Before the last interval begins, a number is not in it. -/
theorem not_inLast_of_lt {a b : ℚ × ℚ} {ps : List (ℚ × ℚ)} (h : Rising (a :: b :: ps))
    (hps : ps ≠ []) (hq : q < b.1) : ¬ InLast (a :: b :: ps) q := by
  rintro ⟨l, c, d, hsplit, hc, -⟩
  have hmem : c = b ∨ c ∈ ps := by
    cases l with
    | nil =>
      obtain ⟨-, hb, hps'⟩ : a = c ∧ b = d ∧ ps = [] := by simpa using hsplit
      exact absurd hps' hps
    | cons _ l =>
      have htail := (List.cons.inj hsplit).2
      have hin : c ∈ b :: ps := by
        rw [htail]
        exact List.mem_append_right l List.mem_cons_self
      exact List.mem_cons.mp hin
  obtain rfl | hmem := hmem
  · exact absurd hc (not_le.mpr hq)
  · have hlt := (List.pairwise_cons.mp h.tail).1 c hmem
    exact absurd hc (not_le.mpr (hq.trans hlt.1))

/-- The loop behind a point `a`: it is right unless the number is in the last interval. -/
theorem interpolateLoop_iff {a : ℚ × ℚ} (h : Rising (a :: (b :: bs).map (Quantile.point n)))
    (hq : a.1 ≤ q) :
    interpolateLoop n q a.1 a.2 b bs = polyline a ((b :: bs).map (Quantile.point n)) q ↔
      ¬ InLast (a :: (b :: bs).map (Quantile.point n)) q := by
  induction bs generalizing a b with
  | nil =>
    rw [List.map_cons, List.map_nil] at h ⊢
    rw [inLast_pair, interpolateLoop]
    obtain hlt | hle := lt_or_ge q (b.point n).1
    · rw [polyline_of_le hlt.le]
      refine iff_of_false (fun heq => ?_) fun hnot => hnot ⟨hq, hlt⟩
      -- below its end, the line of the last interval has not reached the last score
      have hless := line_strictMono h.head hlt
      rw [line_right h.head.1.ne, ← heq] at hless
      exact lt_irrefl _ hless
    · rw [polyline_of_ge h hle]
      exact iff_of_true rfl fun hin => absurd hin.2 (not_lt.mpr hle)
  | cons next bs ih =>
    rw [List.map_cons] at h ⊢
    rw [interpolateLoop_cons]
    obtain hlt | hle := lt_or_ge q (b.point n).1
    · have hpos : (b.point n).1 - a.1 ≠ 0 := sub_ne_zero.mpr h.head.1.ne'
      rw [if_pos ⟨hq, hlt⟩, if_neg hpos, polyline_of_le hlt.le]
      exact iff_of_true rfl (not_inLast_of_lt h (List.cons_ne_nil _ _) hlt)
    · -- the loop goes on with this bucket as the point before
      rw [if_neg fun hin => absurd hin.2 (not_lt.mpr hle), polyline_of_ge h hle, List.map_cons,
        inLast_cons]
      exact ih h.tail hle

/-! ### All quantiles -/

/-- `f` reads all quantiles off the function `g`, and so it is continuous and non-decreasing. -/
structure Interpolates (f g : ℚ → ℚ) : Prop where
  agrees : ∀ q, 0 ≤ q → q ≤ 100 → f q = g q
  continuous : ContinuousOn f (Set.Icc 0 100)
  monotone : MonotoneOn f (Set.Icc 0 100)

theorem Interpolates.of_agrees {f g : ℚ → ℚ} (agrees : ∀ q, 0 ≤ q → q ≤ 100 → f q = g q)
    (continuous : Continuous g) (monotone : Monotone g) : Interpolates f g := by
  refine ⟨agrees, continuous.continuousOn.congr fun q hq => agrees q hq.1 hq.2, ?_⟩
  intro q hq q' hq' hle
  rw [agrees q hq.1 hq.2, agrees q' hq'.1 hq'.2]
  exact monotone hle

/-- The point of a bucket is a percentage. -/
theorem point_mem_Icc (hn : n = (freqs.map Freqs.count).sum) (hb : b ∈ fillQuantiles 0 freqs) :
    0 ≤ (b.point n).1 ∧ (b.point n).1 ≤ 100 := by
  obtain ⟨l, r, hsplit, hnumless, -⟩ := mem_fillQuantiles hb
  rw [hsplit, List.map_append, List.sum_append] at hn
  have hle : (b.numless : ℚ) ≤ n := Nat.cast_le.mpr (by omega)
  rw [Quantile.point]
  dsimp only
  refine ⟨by positivity, div_le_of_le_mul₀ (Nat.cast_nonneg n) (by norm_num) ?_⟩
  linarith

/-- A table begins at 0 %. -/
theorem point_of_head (h : fillQuantiles 0 freqs = b :: bs) (n : ℕ) : (b.point n).1 = 0 := by
  cases freqs with
  | nil => exact absurd h nofun
  | cons fp freqs =>
    obtain ⟨rfl, -⟩ := List.cons.inj h
    rw [Quantile.point, Nat.cast_zero, zero_mul, zero_div]

/-- A quantile is read off the function unless it is in the last interval. -/
theorem interpolatequantile_eq_iff (h : Rising ((b :: bs).map (Quantile.point n)))
    (hzero : (b.point n).1 = 0) (hq : 0 ≤ q) :
    interpolatequantile (b :: bs) n q = quantileFunction n (b :: bs) q ↔
      ¬ InLast ((b :: bs).map (Quantile.point n)) q := by
  cases bs with
  | nil => exact iff_of_true rfl (not_inLast_single _)
  | cons next bs =>
    -- the first turn of the loop only takes the first point
    have hturn : interpolatequantile (b :: next :: bs) n q =
        interpolateLoop n q (b.point n).1 (b.point n).2 next bs := by
      have hstay : ¬ (0 ≤ q ∧ q < (b.point n).1) := by
        rw [hzero]
        exact fun h => absurd h.1 (not_le.mpr h.2)
      exact (interpolateLoop_cons n q (0, b.score) b next bs).trans (if_neg hstay)
    rw [hturn]
    exact interpolateLoop_iff h (hzero.trans_le hq)

/-- With two points or more, the last interval is not empty. -/
theorem exists_inLast {ps : List (ℚ × ℚ)} (h : Rising ps) (hlength : 2 ≤ ps.length) :
    ∃ a ∈ ps, InLast ps a.1 := by
  obtain hnil | ⟨ps, b, rfl⟩ := List.eq_nil_or_concat' ps
  · rw [hnil] at hlength
    exact absurd hlength (by decide)
  obtain hnil | ⟨l, a, rfl⟩ := List.eq_nil_or_concat' ps
  · rw [hnil] at hlength
    exact absurd hlength (by simp)
  have hbelow : Below a b :=
    (List.pairwise_append.mp h).2.2 a (List.mem_append_right l (List.mem_singleton_self a)) b
      (List.mem_singleton_self b)
  have hmem : a ∈ l ++ [a] ++ [b] :=
    List.mem_append_left _ (List.mem_append_right l (List.mem_singleton_self a))
  exact ⟨a, hmem, l, a, b, List.append_assoc _ _ _, le_rfl, hbelow.1⟩

/-- `interpolatequantile` on a table whose `numless` are the cumulated counts. The function that the
table describes is continuous and non-decreasing. A quantile is read off it if and only if it is
not in the interval before the last bucket, and all quantiles are if and only if there is one
bucket only. -/
theorem interpolatequantile_iff (nonempty : freqs ≠ [])
    (increasing : freqs.Pairwise fun fp fp' => fp.score < fp'.score)
    (positive : ∀ fp ∈ freqs, 0 < fp.count) (hn : n = (freqs.map Freqs.count).sum) :
    let table := fillQuantiles 0 freqs
    Continuous (quantileFunction n table) ∧ Monotone (quantileFunction n table) ∧
      (∀ q, 0 ≤ q → (interpolatequantile table n q = quantileFunction n table q ↔
        ¬ InLast (table.map (Quantile.point n)) q)) ∧
      (Interpolates (interpolatequantile table n) (quantileFunction n table) ↔
        freqs.length = 1) := by
  have hpos : 0 < n := by
    obtain ⟨fp, hfp⟩ := List.exists_mem_of_ne_nil freqs nonempty
    have hle := List.single_le_sum (fun _ _ => Nat.zero_le _) _
      (List.mem_map_of_mem (f := Freqs.count) hfp)
    have hcount := positive fp hfp
    omega
  have hrising := rising_points hpos increasing positive 0
  have hpoint : ∀ b ∈ fillQuantiles 0 freqs, 0 ≤ (b.point n).1 ∧ (b.point n).1 ≤ 100 :=
    fun b hb => point_mem_Icc hn hb
  have hlength : (fillQuantiles 0 freqs).length = freqs.length := by
    rw [← List.length_map (f := fun b : Quantile => b.toFreqs), map_fillQuantiles]
  cases htable : fillQuantiles 0 freqs with
  | nil =>
    rw [htable] at hlength
    exact absurd (List.length_eq_zero_iff.mp hlength.symm) nonempty
  | cons b bs =>
    rw [htable] at hrising hpoint hlength
    have hquantile : ∀ q, 0 ≤ q → (interpolatequantile (b :: bs) n q =
        quantileFunction n (b :: bs) q ↔ ¬ InLast ((b :: bs).map (Quantile.point n)) q) :=
      fun q hq => interpolatequantile_eq_iff hrising (point_of_head htable n) hq
    have hcontinuous : Continuous (quantileFunction n (b :: bs)) := continuous_polyline hrising
    have hmonotone : Monotone (quantileFunction n (b :: bs)) := monotone_polyline hrising
    refine ⟨hcontinuous, hmonotone, hquantile, fun h => ?_, fun hone => ?_⟩
    · -- the point of the bucket before the last one is in the last interval
      by_contra hne
      rw [List.length_cons] at hlength
      obtain ⟨x, hx, hlast⟩ := exists_inLast hrising (by
        rw [List.length_map, List.length_cons]
        omega)
      obtain ⟨c, hc, rfl⟩ := List.mem_map.mp hx
      obtain ⟨hge, hle⟩ := hpoint c hc
      exact (hquantile _ hge).mp (h.agrees _ hge hle) hlast
    · rw [hone, List.length_cons] at hlength
      obtain rfl : bs = [] := List.length_eq_zero_iff.mp (by omega)
      exact .of_agrees (fun q hq _ => (hquantile q hq).mpr (not_inLast_single _)) hcontinuous
        hmonotone

theorem interpolatequantile_iff_example :
    Continuous (quantileFunction 2 (fillQuantiles 0 [⟨3, 1⟩, ⟨5, 1⟩])) ∧
      interpolatequantile (fillQuantiles 0 [⟨3, 1⟩, ⟨5, 1⟩]) 2 60 =
        quantileFunction 2 (fillQuantiles 0 [⟨3, 1⟩, ⟨5, 1⟩]) 60 := by
  have nonempty : [(⟨3, 1⟩ : Freqs), ⟨5, 1⟩] ≠ [] := List.cons_ne_nil _ _
  obtain ⟨hcontinuous, -, hquantile, -⟩ :=
    interpolatequantile_iff (n := 2) nonempty (by decide_cbv) (by decide) rfl
  refine ⟨hcontinuous, (hquantile 60 (by norm_num)).mpr ?_⟩
  rw [show (fillQuantiles 0 [⟨3, 1⟩, ⟨5, 1⟩]).map (Quantile.point 2) = [(0, 3), (50, 5)] by
    decide_cbv, inLast_pair]
  norm_num

/-- For two scores the quantile in the middle between them is not their mean. -/
theorem interpolatequantile_last :
    interpolatequantile (fillQuantiles 0 [⟨3, 1⟩, ⟨5, 1⟩]) 2 25 = 5 ∧
      quantileFunction 2 (fillQuantiles 0 [⟨3, 1⟩, ⟨5, 1⟩]) 25 = 4 := by
  constructor
  · norm_num [fillQuantiles, interpolatequantile, interpolateLoop]
  · norm_num [fillQuantiles, quantileFunction, polyline, Quantile.point, line]

end CLanguage.Grades
