import Redux.Lib.Tally
import Redux.Lib.Transfer

/-!
# Util.MedianFilter — medians along a row of data

`median_filter` takes the median of each window into an array of its own, copies the medians back behind
the first half window, and carries the outermost medians to the borders.  Its loop goes on for a whole
window more than there are, so that it reads half a window and one element behind the data
(`median_filter_reads`).  What comes of these windows is overwritten by the border: from two elements on, the
medians stay inside their array, and the data are filtered as they should be whatever is there
(`median_filter_filtered`).
-/

namespace Redux.Util.MedianFilter

open Lib

variable {T : Type} [LinearOrder T]

/-- `std::nth_element`: the `k`-th element in order. -/
def nth_element (view : List T) (k : ℕ) (h : k < view.length) : T :=
  (view.mergeSort fun a b => decide (a ≤ b)).get ⟨k, by rwa [List.length_mergeSort]⟩

/-- The elements of `data`, and what is in memory behind them; the array of the medians, with what is behind
it; which elements of `data` have been read; and which elements of `result` have been written. -/
structure Run (T : Type) where
  data : ℕ → T
  result : ℕ → T
  reads : List ℕ
  writes : List ℕ

/-- The positions of the window at `i`. -/
def window (size i : ℕ) : List ℕ := (List.range size).map (i + ·)

theorem window_length (size i : ℕ) : (window size i).length = size := by
  rw [window, List.length_map, List.length_range]

/-- `view[halfSize]`, once the window at `i` has been copied to `view` and partitioned. -/
def medianAt {size halfSize : ℕ} (h : halfSize < size) (data : ℕ → T) (i : ℕ) : T :=
  nth_element ((window size i).map data) halfSize (by rwa [List.length_map, window_length])

/-- A round of the first loop. -/
def windowStep {size halfSize : ℕ} (h : halfSize < size) (run : Run T) (i : ℕ) : Run T :=
  { run with
    reads := run.reads ++ window size i
    result := Function.update run.result i (medianAt h run.data i)
    writes := run.writes ++ [i] }

/-- `std::copy( result, result+last, data+halfSize )`. -/
def copyBack (halfSize last : ℕ) (run : Run T) : Run T :=
  { run with data := writeEach ((List.range last).map fun i => (halfSize + i, run.result i)) run.data }

/-- `data[to] = data[from]`. -/
def Run.move (run : Run T) (source target : ℕ) : Run T :=
  { run with
    reads := run.reads ++ [source]
    data := Function.update run.data target (run.data source) }

/-- A round of the loop over the borders. -/
def borderStep (halfSize last : ℕ) (run : Run T) (i : ℕ) : Run T :=
  (run.move (halfSize - i) (halfSize - i - 1)).move (last + i - 1) (last + i)

/-- `if( !(size&1) ) ++size`. -/
def oddSize (size : ℕ) : ℕ := if size % 2 = 0 then size + 1 else size

theorem half_lt (size : ℕ) : oddSize size / 2 < oddSize size := by
  rw [oddSize]
  split_ifs <;> omega

/-- The three loops, for a window of `size` elements. -/
def filterWith {size halfSize : ℕ} (h : halfSize < size) (nElements : ℕ) (run : Run T) : Run T :=
  let last := nElements - halfSize
  let run := (List.range (last + 1)).foldl (windowStep h) run
  let run := copyBack halfSize last run
  (List.range halfSize).foldl (borderStep halfSize last) run

/-- `median_filter`, with an array for the medians that holds `fresh`. -/
def median_filter (data fresh : ℕ → T) (nElements size : ℕ) : Run T :=
  let run : Run T := ⟨data, fresh, [], []⟩
  if size ≠ 0 ∧ 2 * size % 2 ^ 64 < nElements then filterWith (half_lt size) nElements run else run

/-! ## What it should do -/

/-- A median: no more than half of the elements are less, and no more than half are greater. -/
structure IsMedian (xs : List T) (m : T) : Prop where
  mem : m ∈ xs
  less : 2 * xs.countP (· < m) ≤ xs.length
  greater : 2 * xs.countP (m < ·) ≤ xs.length

/-- All but the borders are medians of what was around them, and the borders are as the element next to
them. -/
structure Filtered (data data' : ℕ → T) (nElements halfSize : ℕ) : Prop where
  median : ∀ i, halfSize ≤ i → i < nElements - halfSize →
    IsMedian ((window (2 * halfSize + 1) (i - halfSize)).map data) (data' i)
  first : ∀ i < halfSize, data' i = data' halfSize
  last : ∀ i, nElements - halfSize ≤ i → i < nElements → data' i = data' (nElements - halfSize - 1)

/-- The data are filtered, and nothing else is read. -/
def FiltersInside (data fresh : ℕ → T) (nElements size : ℕ) : Prop :=
  (∀ k ∈ (median_filter data fresh nElements size).reads, k < nElements) ∧
    Filtered data (median_filter data fresh nElements size).data nElements (oddSize size / 2)

/-! ## Medians -/

theorem mergeSort_pairwise (xs : List T) : (xs.mergeSort fun a b => decide (a ≤ b)).Pairwise (· ≤ ·) := by
  have h := @List.pairwise_mergeSort _ (fun a b : T => decide (a ≤ b))
    (fun a b c hab hbc => decide_eq_true ((of_decide_eq_true hab).trans (of_decide_eq_true hbc)))
    (fun a b => by
      rw [Bool.or_eq_true, decide_eq_true_iff, decide_eq_true_iff]
      exact le_total a b) xs
  exact h.imp of_decide_eq_true

/-- The middle element in order is the median. -/
theorem nth_element_isMedian {xs : List T} {h : ℕ} (hlen : xs.length = 2 * h + 1) (hh : h < xs.length) :
    IsMedian xs (nth_element xs h hh) := by
  have hperm : (xs.mergeSort fun a b => decide (a ≤ b)).Perm xs := List.mergeSort_perm _ _
  have hsorted := mergeSort_pairwise xs
  have hh' : h < (xs.mergeSort fun a b => decide (a ≤ b)).length := by rwa [hperm.length_eq]
  have hget : nth_element xs h hh = (xs.mergeSort fun a b => decide (a ≤ b))[h] := rfl
  rw [hget]
  generalize hm : (xs.mergeSort fun a b => decide (a ≤ b))[h] = m
  have hless := getElem_iff_lt_countP (P := (· < m)) (hsorted.imp fun hab hb => lt_of_le_of_lt hab hb) h hh'
  have hle := getElem_iff_lt_countP (P := (· ≤ m)) (hsorted.imp fun hab hb => le_trans hab hb) h hh'
  rw [hm, hperm.countP_eq] at hless hle
  have hnot := not_lt.1 (mt hless.2 (lt_irrefl m))
  have hmost := hle.1 le_rfl
  have hsum := List.length_eq_countP_add_countP (fun a => decide (a ≤ m)) (l := xs)
  have hgreater : xs.countP (fun a => decide (¬decide (a ≤ m) = true)) = xs.countP (fun a => decide (m < a)) := by
    simp only [decide_eq_true_iff, not_le]
  refine ⟨hperm.mem_iff.1 (hm ▸ List.getElem_mem hh'), by omega, ?_⟩
  rw [hgreater] at hsum
  omega

/-! ## The loops -/

section Loops

variable {run : Run T} {size halfSize last m k : ℕ}

/-- The windows that have been looked at, and what is left of their medians. -/
theorem foldl_windowStep (h : halfSize < size) (run : Run T) (m : ℕ) :
    let run' := (List.range m).foldl (windowStep h) run
    run'.data = run.data ∧ (∀ i < m, run'.result i = medianAt h run.data i) ∧
      (∀ k, k ∈ run'.reads ↔ k ∈ run.reads ∨ ∃ i < m, k ∈ window size i) ∧
      run'.writes = run.writes ++ List.range m := by
  induction m with
  | zero => exact ⟨rfl, fun i hi => absurd hi (Nat.not_lt_zero i), fun k => by simp, by simp⟩
  | succ m ih =>
    obtain ⟨hdata, hresult, hreads, hwrites⟩ := ih
    rw [List.range_succ, List.foldl_append, List.foldl_cons, List.foldl_nil, windowStep]
    dsimp only
    refine ⟨hdata, fun i hi => ?_, fun k => ?_, by rw [hwrites, List.append_assoc]⟩
    · by_cases him : i = m
      · rw [him, Function.update_self, hdata]
      · rw [Function.update_of_ne him, hresult i (by omega)]
    · rw [List.mem_append, hreads, or_assoc]
      refine or_congr_right ⟨?_, ?_⟩
      · rintro (⟨i, hi, hk⟩ | hk)
        · exact ⟨i, by omega, hk⟩
        · exact ⟨m, by omega, hk⟩
      · rintro ⟨i, hi, hk⟩
        by_cases him : i = m
        · exact .inr (him ▸ hk)
        · exact .inl ⟨i, by omega, hk⟩

omit [LinearOrder T] in
theorem copyBack_data (i : ℕ) : (copyBack halfSize last run).data (halfSize + i) =
    if i < last then run.result i else run.data (halfSize + i) := by
  have hcells : ((List.range last).map fun i => (halfSize + i, run.result i)).map Prod.fst =
      (List.range last).map (halfSize + ·) := by rw [List.map_map]; rfl
  rw [copyBack]
  dsimp only
  split_ifs with hi
  · refine writeEach_of_mem (p := (halfSize + i, run.result i)) ?_ (List.mem_map.2 ⟨i, List.mem_range.2 hi, rfl⟩)
    rw [hcells]
    exact List.nodup_range.map fun a b hab => Nat.add_left_cancel hab
  · refine writeEach_of_notMem fun hmem => hi ?_
    rw [hcells] at hmem
    obtain ⟨j, hj, heq⟩ := List.mem_map.1 hmem
    rw [List.mem_range] at hj
    omega

/-- The outermost medians have been carried `m` steps outwards. -/
theorem foldl_borderStep (hlast : halfSize < last) (run : Run T) : ∀ m ≤ halfSize,
    let run' := (List.range m).foldl (borderStep halfSize last) run
    (∀ k, run'.data k =
      if halfSize - m ≤ k ∧ k < halfSize then run.data halfSize
      else if last ≤ k ∧ k < last + m then run.data (last - 1)
      else run.data k) ∧
      ∀ k, (k ∈ run'.reads → k ∈ run.reads ∨ k < last + m) ∧ (k ∈ run.reads → k ∈ run'.reads)
  | 0, _ => ⟨fun k => by rw [if_neg (by omega), if_neg (by omega)]; rfl, fun k => ⟨.inl, id⟩⟩
  | m + 1, hm => by
    obtain ⟨hdata, hreads⟩ := foldl_borderStep hlast run m (by omega)
    rw [List.range_succ, List.foldl_append, List.foldl_cons, List.foldl_nil]
    generalize (List.range m).foldl (borderStep halfSize last) run = r at hdata hreads ⊢
    have hfirst : r.data (halfSize - m) = run.data halfSize := by
      rw [hdata]
      split_ifs with h₁ h₂
      · rfl
      · omega
      · congr 1
        omega
    have hlater : r.data (last + m - 1) = run.data (last - 1) := by
      rw [hdata, if_neg (by omega)]
      split_ifs with h₂
      · rfl
      · congr 1
        omega
    rw [borderStep, Run.move, Run.move]
    refine ⟨fun k => ?_, fun k => ⟨fun hk => ?_, fun hk => ?_⟩⟩
    · dsimp only
      rw [Function.update_of_ne (by omega : last + m - 1 ≠ halfSize - m - 1), hfirst, hlater]
      by_cases hk₂ : k = last + m
      · rw [hk₂, Function.update_self, if_neg (by omega), if_pos (by omega)]
      rw [Function.update_of_ne hk₂]
      by_cases hk₁ : k = halfSize - m - 1
      · rw [hk₁, Function.update_self, if_pos (by omega)]
      rw [Function.update_of_ne hk₁, hdata]
      exact if_congr (by omega) rfl (if_congr (by omega) rfl rfl)
    · dsimp only at hk
      rw [List.mem_append, List.mem_append, List.mem_singleton, List.mem_singleton] at hk
      rcases hk with (hk | hk) | hk
      · exact ((hreads k).1 hk).imp_right fun h => by omega
      · exact .inr (by omega)
      · exact .inr (by omega)
    · exact List.mem_append_left _ (List.mem_append_left _ ((hreads k).2 hk))

end Loops

/-! ## The call -/

section Call

variable {data fresh : ℕ → T} {n size h : ℕ} {run : Run T}

theorem mem_window {size i k : ℕ} : k ∈ window size i ↔ i ≤ k ∧ k < i + size := by
  rw [window, List.mem_map]
  constructor
  · rintro ⟨j, hj, rfl⟩
    rw [List.mem_range] at hj
    omega
  · rintro ⟨h₁, h₂⟩
    exact ⟨k - i, List.mem_range.2 (by omega), by omega⟩

/-- Half a window and one element are read behind the data. -/
theorem filterWith_reads (hh : h < 2 * h + 1) (hn : 2 * h < n) (hrun : run.reads = []) (k : ℕ) :
    k ∈ (filterWith hh n run).reads ↔ k ≤ n + h := by
  obtain ⟨-, -, hreads, -⟩ := foldl_windowStep hh run (n - h + 1)
  have hborder := fun r : Run T => (foldl_borderStep (by omega : h < n - h) r h le_rfl).2 k
  constructor
  · intro hk
    rcases (hborder _).1 hk with hk | hk
    · rcases (hreads k).1 hk with hk | ⟨i, hi, hk⟩
      · rw [hrun] at hk
        exact absurd hk List.not_mem_nil
      · rw [mem_window] at hk
        omega
    · omega
  · intro hk
    refine (hborder _).2 ((hreads k).2 (.inr ?_))
    by_cases hlast : k ≤ n - h
    · exact ⟨k, by omega, mem_window.2 ⟨le_rfl, by omega⟩⟩
    · exact ⟨n - h, by omega, mem_window.2 ⟨by omega, by omega⟩⟩

omit [LinearOrder T] in
theorem writes_foldl_borderStep (h last : ℕ) (run : Run T) (is : List ℕ) :
    (is.foldl (borderStep h last) run).writes = run.writes := by
  induction is generalizing run with
  | nil => rfl
  | cons i is ih => exact ih _

/-- One median more is written than there are windows in the data. -/
theorem filterWith_writes (hh : h < 2 * h + 1) (run : Run T) :
    (filterWith hh n run).writes = run.writes ++ List.range (n - h + 1) :=
  (writes_foldl_borderStep h (n - h) _ _).trans (foldl_windowStep hh run (n - h + 1)).2.2.2

/-- The medians of the original data, carried to the borders. -/
theorem filterWith_data (hh : h < 2 * h + 1) (hn : 2 * h < n) {k : ℕ} (hk : k < n) :
    (filterWith hh n run).data k = medianAt hh run.data
      (if k < h then 0 else if n - h ≤ k then n - 2 * h - 1 else k - h) := by
  obtain ⟨-, hresult, -, -⟩ := foldl_windowStep hh run (n - h + 1)
  have hborder := fun r : Run T => (foldl_borderStep (by omega : h < n - h) r h le_rfl).1 k
  have hcopied (i : ℕ) (hi : i < n - h) : (copyBack h (n - h)
      ((List.range (n - h + 1)).foldl (windowStep hh) run)).data (h + i) = medianAt hh run.data i := by
    rw [copyBack_data, if_pos hi, hresult i (by omega)]
  rw [filterWith, hborder]
  by_cases hfirst : k < h
  · rw [if_pos ⟨by omega, hfirst⟩, if_pos hfirst]
    exact hcopied 0 (by omega)
  rw [if_neg (by omega), if_neg hfirst]
  by_cases hlast : n - h ≤ k
  · rw [if_pos ⟨hlast, by omega⟩, if_pos hlast, ← hcopied _ (by omega)]
    congr 1
    omega
  · rw [if_neg (by omega), if_neg hlast, ← hcopied _ (by omega)]
    congr 1
    omega

theorem medianAt_isMedian (hh : h < 2 * h + 1) (data : ℕ → T) (i : ℕ) :
    IsMedian ((window (2 * h + 1) i).map data) (medianAt hh data i) :=
  nth_element_isMedian (by rw [List.length_map, window_length]) _

/-- The loops filter the data. -/
theorem filterWith_filtered (hh : h < 2 * h + 1) (hn : 2 * h < n) :
    Filtered run.data (filterWith hh n run).data n h where
  median i h₁ h₂ := by
    rw [filterWith_data hh hn (by omega), if_neg (by omega), if_neg (by omega)]
    exact medianAt_isMedian hh run.data (i - h)
  first i hi := by
    rw [filterWith_data hh hn (by omega), filterWith_data hh hn (by omega), if_pos hi, if_neg (lt_irrefl h)]
    split_ifs
    · congr 1
      omega
    · rw [Nat.sub_self]
  last i h₁ h₂ := by
    rw [filterWith_data hh hn h₂, filterWith_data hh hn (by omega), if_neg (by omega), if_pos h₁, if_neg (by omega),
      if_neg (by omega)]
    congr 1
    omega

/-- The call is the loops with an odd window. -/
theorem median_filter_eq (hsize : 1 ≤ size) (hn : 2 * size < n) : ∃ hh : oddSize size / 2 < 2 * (oddSize size / 2) + 1,
    2 * (oddSize size / 2) < n ∧ median_filter data fresh n size = filterWith hh n ⟨data, fresh, [], []⟩ := by
  have hodd : oddSize size = 2 * (oddSize size / 2) + 1 := by
    rw [oddSize]
    split_ifs <;> omega
  have hle : oddSize size ≤ size + 1 := by
    rw [oddSize]
    split_ifs <;> omega
  refine ⟨by omega, by omega, ?_⟩
  rw [median_filter, if_pos ⟨by omega, lt_of_le_of_lt (Nat.mod_le _ _) hn⟩]
  have hsame : ∀ {s : ℕ} (h₁ : oddSize size / 2 < s) (h₂ : oddSize size / 2 < 2 * (oddSize size / 2) + 1),
      s = 2 * (oddSize size / 2) + 1 →
        filterWith h₁ n (⟨data, fresh, [], []⟩ : Run T) = filterWith h₂ n ⟨data, fresh, [], []⟩ := by
    rintro s h₁ h₂ rfl
    rfl
  exact hsame _ _ hodd

/-- **What is read**: the data, and half a window and one element behind them. -/
theorem median_filter_reads (hsize : 1 ≤ size) (hn : 2 * size < n) (k : ℕ) :
    k ∈ (median_filter data fresh n size).reads ↔ k ≤ n + oddSize size / 2 := by
  obtain ⟨hh, hlt, heq⟩ := @median_filter_eq T _ data fresh n size hsize hn
  rw [heq]
  exact filterWith_reads hh hlt rfl k

/-- **What comes of the data**, whatever is in memory behind them: from two elements on, the medians stay inside
their array, and the data are filtered. -/
theorem median_filter_filtered (hsize : 2 ≤ size) (hn : 2 * size < n) :
    (∀ i ∈ (median_filter data fresh n size).writes, i < n) ∧
      Filtered data (median_filter data fresh n size).data n (oddSize size / 2) := by
  obtain ⟨hh, hlt, heq⟩ := @median_filter_eq T _ data fresh n size (by omega) hn
  have hhalf : 1 ≤ oddSize size / 2 := by
    rw [oddSize]
    split_ifs <;> omega
  rw [heq]
  refine ⟨fun i hi => ?_, @filterWith_filtered T _ n _ ⟨data, fresh, [], []⟩ hh hlt⟩
  rw [filterWith_writes, List.nil_append, List.mem_range] at hi
  omega

end Call

/-- **No call stays inside the data.** -/
theorem never_inside {data fresh : ℕ → T} {nElements size : ℕ} (hsize : 1 ≤ size) (hn : 2 * size < nElements) :
    ¬FiltersInside data fresh nElements size := by
  rintro ⟨hinside, -⟩
  exact lt_irrefl nElements (hinside nElements ((median_filter_reads hsize hn nElements).2 (Nat.le_add_right _ _)))

/-- Seven numbers. -/
def sevenFiltered : Run ℕ := median_filter (fun k => k) (fun _ => 0) 7 3

theorem seven_filtered :
    (∀ i ∈ sevenFiltered.writes, i < 7) ∧ Filtered (fun k : ℕ => k) sevenFiltered.data 7 1 :=
  median_filter_filtered (by decide) (by decide)

theorem seven_not_inside : ¬FiltersInside (fun k : ℕ => k) (fun _ => 0) 7 3 := never_inside (by decide) (by decide)

/-- The medians of three of them take the eighth and the ninth number. -/
theorem ninth_read : 8 ∈ sevenFiltered.reads ∧ ¬FiltersInside (fun k : ℕ => k) (fun _ => 0) 7 3 := by
  have hread : 8 ∈ sevenFiltered.reads := (@median_filter_reads ℕ _ _ _ 7 3 (by decide) (by decide) 8).2 (by decide)
  exact ⟨hread, fun h => absurd (h.1 8 hread) (by decide)⟩

end Redux.Util.MedianFilter
