import Mathlib.Data.Nat.ModEq
import NestHarness.Common.PageBounds

/-!
# The pages of a result

Up to `2 ^ 53` rows the pages of a result tile it, and the tabs of its pages tile the page numbers.
-/

namespace NestHarness

open Js Number

/-- The rows of `LIMIT` and `OFFSET`. -/
def Pagination.rows (p : Pagination) : Set ℕ :=
  {r | p.offset.rational ≤ r ∧ (r : ℚ) < p.offset.rational + p.limit.rational}

/-- The number at a row of the page, counted upwards. -/
def Pagination.ascendingNumber (p : Pagination) (row : ℕ) : ℚ :=
  p.contentStartNumberReverse.rational + (row - p.offset.rational)

/-- The number at a row of the page, counted downwards. -/
def Pagination.descendingNumber (p : Pagination) (row : ℕ) : ℚ :=
  p.contentStartNumber.rational - (row - p.offset.rational)

/-- The page numbers that the tabs show. -/
def Pagination.tabs (p : Pagination) : Set ℕ :=
  {n | p.pageRange.start.rational ≤ n ∧ (n : ℚ) ≤ p.pageRange.end_.rational}

/-- The same list with another page asked for. -/
def PaginationData.withPage (data : PaginationData) (page : Param) : PaginationData :=
  { data with page }

/-- The rows of the pages up to `last`, each with its page. -/
def shownRows (pages : ℕ → Pagination) (total last : ℕ) : Set (ℕ × ℕ) :=
  {kr | kr.1 ∈ Set.Icc 1 last ∧ kr.2 < total ∧ kr.2 ∈ (pages kr.1).rows}

/-- The pages up to `last` show each of `total` rows once, and number them. -/
structure PagesTile (pages : ℕ → Pagination) (total last : ℕ) : Prop where
  covers : ∀ r < total, ∃! k, k ∈ Set.Icc 1 last ∧ r ∈ (pages k).rows
  ascending : Set.BijOn (fun kr : ℕ × ℕ => (pages kr.1).ascendingNumber kr.2)
    (shownRows pages total last) (Nat.cast '' Set.Icc 1 total)
  descending : Set.BijOn (fun kr : ℕ × ℕ => (pages kr.1).descendingNumber kr.2)
    (shownRows pages total last) (Nat.cast '' Set.Icc 1 total)
  last_row : 0 < total →
    total - 1 ∈ (pages last).rows ∧ (pages last).descendingNumber (total - 1) = 1

variable {data : PaginationData} {v : Param} {t s b k : ℕ}

theorem value_natCast (h : k ≤ 2 ^ 53) : (k : Number).value = some (k : ℚ) := value_ofNat h

/-- A page is asked for by its number. -/
theorem requestedPage_number (hk : 1 ≤ k) (hle : k ≤ 2 ^ 53) :
    (data.withPage (.number k)).requestedPage = k := by
  have hvalue := value_natCast hle
  have hparse := parseInt_natCast hvalue (hle.trans_lt (by norm_num))
  have hne : (k : ℚ) ≠ 0 := by exact_mod_cast (by omega : k ≠ 0)
  have heq : (k : Number).parseInt = k := eq_of_value hparse hvalue hne
  have hnan := isNaN_of_value hvalue
  have hle₀ : ¬(k : Number).le 0 = true := by
    rw [le_iff hvalue (value_ofNat (n := 0) (by decide)), not_le]
    exact_mod_cast hk
  have hor : (Param.number k).parseOr 1 = k := by
    change (if (k : Number).parseInt.isNaN = true then (1 : Number) else (k : Number).parseInt) = k
    rw [heq, hnan]
    rfl
  change (if ((Param.number k).parseOr 1).le 0 = true then (1 : Number) else
    (Param.number k).parseOr 1) = k
  rw [hor, if_neg hle₀]

/-- A pagination depends on the page asked for only. -/
theorem new_withPage {w : Param}
    (h : (data.withPage v).requestedPage = (data.withPage w).requestedPage) :
    Pagination.new (data.withPage v) = Pagination.new (data.withPage w) := by
  unfold Pagination.new
  rw [h]
  rfl

theorem lastPage_le (hle : t ≤ 2 ^ 53) (hs₁ : 1 ≤ s) : max (t ⌈/⌉ s) 1 ≤ 2 ^ 53 := by
  have hceil : t ⌈/⌉ s ≤ t := (ceilDiv_le_iff_le_mul hs₁).mpr (Nat.le_mul_of_pos_left t hs₁)
  omega

/-- Rows counted upwards. -/
theorem bijOn_succ (t : ℕ) :
    Set.BijOn (fun r : ℕ => ((r + 1 : ℕ) : ℚ)) (Set.Iio t) (Nat.cast '' Set.Icc 1 t) := by
  refine ⟨fun r hr => ⟨r + 1, ⟨by omega, hr⟩, rfl⟩, ?_, ?_⟩
  · intro r _ r' _ h
    exact Nat.succ_injective (Nat.cast_injective h)
  · rintro _ ⟨n, hn, rfl⟩
    refine ⟨n - 1, Nat.sub_one_lt_of_le hn.1 hn.2, ?_⟩
    exact congrArg Nat.cast (Nat.sub_add_cancel hn.1)

/-- Rows counted downwards. -/
theorem bijOn_sub (t : ℕ) :
    Set.BijOn (fun r : ℕ => ((t - r : ℕ) : ℚ)) (Set.Iio t) (Nat.cast '' Set.Icc 1 t) := by
  refine ⟨fun r hr => ⟨t - r, ⟨Nat.sub_pos_of_lt hr, Nat.sub_le t r⟩, rfl⟩, ?_, ?_⟩
  · intro r hr r' hr' h
    have heq : t - r = t - r' := Nat.cast_injective h
    rw [Set.mem_Iio] at hr hr'
    omega
  · rintro _ ⟨n, hn, rfl⟩
    refine ⟨t - n, Nat.sub_lt (hn.1.trans hn.2) hn.1, ?_⟩
    exact congrArg Nat.cast (Nat.sub_sub_self hn.2)

section Pages

variable (ht : (data.totalCount.parseOr 1).value = some (t : ℚ)) (hle : t ≤ 2 ^ 53)
  (hs : (data.size.parseOr 20).value = some (s : ℚ)) (hs₁ : 1 ≤ s)

include ht hle hs hs₁

/-- The fields of a page of the result that is asked for. -/
theorem values_page (hall : data.searchesAll = false) (hk : data.requestedPage.value = some (k : ℚ))
    (hk₁ : 1 ≤ k) (hkm : k ≤ max (t ⌈/⌉ s) 1) :
    (Pagination.new data).page.value = some (k : ℚ) ∧
    (Pagination.new data).maxPage.value = some ((max (t ⌈/⌉ s) 1 : ℕ) : ℚ) ∧
    (Pagination.new data).limit.value = some (s : ℚ) ∧
    (Pagination.new data).offset.value = some (((k - 1) * s : ℕ) : ℚ) ∧
    (Pagination.new data).contentStartNumber.value = some ((t - (k - 1) * s : ℕ) : ℚ) ∧
    (Pagination.new data).contentStartNumberReverse.value = some ((1 + (k - 1) * s : ℕ) : ℚ) := by
  have hm := value_lastPage_eq ht hs hle hs₁
  have hclamp : clampPage data.requestedPage
      (lastPage (data.totalCount.parseOr 1) (data.size.parseOr 20)) = data.requestedPage := by
    refine if_neg ?_
    rw [lt_iff hm hk, not_lt]
    exact_mod_cast hkm
  have hoffset := value_pageOffset_eq hk hs hle hs₁ hk₁ hkm
  have hrow : (k - 1) * s ≤ t := pred_mul_le hs₁ hkm
  have hnext : 1 + (k - 1) * s ≤ 2 ^ 53 := by
    rcases Nat.lt_or_ge (k - 1) (t ⌈/⌉ s) with hlt | hge
    · have := (lt_ceilDiv_iff hs₁).mp hlt
      omega
    · have : k - 1 = 0 := by omega
      rw [this, Nat.zero_mul]
      decide
  have hone : (1 : Number).value = some ((1 : ℕ) : ℚ) := value_ofNat (by decide)
  rw [new_of_pages data hall, hclamp]
  exact ⟨hk, hm, hs, hoffset, value_sub_natCast ht hoffset hrow ((Nat.sub_le _ _).trans hle),
    value_add_natCast hone hoffset hnext⟩

/-- What a page of the result shows. -/
theorem page_spec (hall : data.searchesAll = false) (hk₁ : 1 ≤ k) (hkm : k ≤ max (t ⌈/⌉ s) 1) :
    (Pagination.new (data.withPage (.number k))).rows = block s (k - 1) ∧
    (∀ r, (Pagination.new (data.withPage (.number k))).ascendingNumber r = r + 1) ∧
    ∀ r, (Pagination.new (data.withPage (.number k))).descendingNumber r = t - r := by
  have hk53 := hkm.trans (lastPage_le hle hs₁)
  have hrequested : (data.withPage (.number k)).requestedPage.value = some (k : ℚ) := by
    rw [requestedPage_number hk₁ hk53]
    exact value_natCast hk53
  obtain ⟨-, -, hlimit, hoffset, hdown, hup⟩ :=
    @values_page (data.withPage (.number k)) t s k ht hle hs hs₁ hall hrequested hk₁ hkm
  have hrow : (k - 1) * s ≤ t := pred_mul_le hs₁ hkm
  refine ⟨?_, ?_, ?_⟩
  · ext r
    rw [Pagination.rows, Set.mem_ofPred_eq, rational_of_value hlimit, rational_of_value hoffset,
      block, Set.mem_Ico, Nat.add_one_mul]
    exact_mod_cast Iff.rfl
  · intro r
    rw [Pagination.ascendingNumber, rational_of_value hup, rational_of_value hoffset]
    push_cast
    ring
  · intro r
    rw [Pagination.descendingNumber, rational_of_value hdown, rational_of_value hoffset,
      Nat.cast_sub hrow]
    ring

/-- The pages asked for by their numbers tile the result. -/
theorem pagesTile (hall : data.searchesAll = false) :
    PagesTile (fun k => .new (data.withPage (.number k))) t (max (t ⌈/⌉ s) 1) := by
  have hcovers : ∀ r < t, ∃! k, k ∈ Set.Icc 1 (max (t ⌈/⌉ s) 1) ∧
      r ∈ (Pagination.new (data.withPage (.number k))).rows := by
    intro r hr
    obtain ⟨i, ⟨hi, hmem⟩, hunique⟩ := existsUnique_block hs₁ hr
    have hm : max (t ⌈/⌉ s) 1 = t ⌈/⌉ s := max_eq_left (by omega)
    rw [hm]
    refine ⟨i + 1, ⟨⟨by omega, hi⟩, ?_⟩, ?_⟩
    · rw [(page_spec ht hle hs hs₁ hall (by omega) (by omega)).1]
      exact hmem
    · intro k ⟨⟨hk₁, hkm⟩, hk⟩
      rw [(page_spec ht hle hs hs₁ hall hk₁ (by omega)).1] at hk
      have := hunique (k - 1) ⟨by omega, hk⟩
      omega
  have hrows := bijOn_snd hcovers
  refine ⟨hcovers, ?_, ?_, ?_⟩
  · refine ((bijOn_succ t).comp hrows).congr ?_
    intro kr hkr
    have hnumber := (page_spec ht hle hs hs₁ hall hkr.1.1 hkr.1.2).2.1 kr.2
    exact (Nat.cast_succ kr.2).trans hnumber.symm
  · refine ((bijOn_sub t).comp hrows).congr ?_
    intro kr hkr
    have hnumber := (page_spec ht hle hs hs₁ hall hkr.1.1 hkr.1.2).2.2 kr.2
    exact (Nat.cast_sub hkr.2.1.le).trans hnumber.symm
  · intro hpos
    obtain ⟨hmem, -, hdown⟩ :=
      page_spec ht hle hs hs₁ hall (le_max_right (t ⌈/⌉ s) 1) le_rfl
    refine ⟨?_, ?_⟩
    · rw [hmem, mem_block_iff hs₁]
      have hceil := succ_ceilDiv hs₁ (t - 1)
      rw [Nat.sub_add_cancel hpos] at hceil
      rw [hceil, max_eq_left (Nat.le_add_left 1 _), Nat.add_sub_cancel]
    · rw [hdown, Nat.cast_sub hpos]
      push_cast
      ring

end Pages

/-- A page below the first one is the first one. -/
theorem new_of_before (h : (v.parseOr 1).lt 1 = true) :
    Pagination.new (data.withPage v) = .new (data.withPage (.number (1 : ℕ))) := by
  refine new_withPage ?_
  rw [requestedPage_number le_rfl (by decide)]
  have hle : (v.parseOr 1).le 0 = true := by
    have hint {q : ℚ} (hq : (v.parseOr 1).value = some q) := integer_parseOr (n := 1) (by decide) hq
    rcases value_cases (v.parseOr 1) with hv | ⟨negative, hv⟩ | ⟨q, hq⟩
    · rw [hv] at h
      exact (Bool.false_ne_true h).elim
    · rw [hv, infinity_lt value_one] at h
      rw [hv, h]
      decide +kernel
    · obtain ⟨n, rfl⟩ := hint hq
      rw [lt_iff hq value_one] at h
      rw [le_iff hq (value_ofNat (n := 0) (by decide))]
      have : n < 1 := by exact_mod_cast h
      exact_mod_cast (by omega : n ≤ 0)
  exact if_pos hle

/-- So does one by pages depend on the page shown. -/
theorem new_of_clampPage {w : Param} (hall : data.searchesAll = false)
    (h : clampPage (data.withPage v).requestedPage
        (lastPage (data.totalCount.parseOr 1) (data.size.parseOr 20)) =
      clampPage (data.withPage w).requestedPage
        (lastPage (data.totalCount.parseOr 1) (data.size.parseOr 20))) :
    Pagination.new (data.withPage v) = .new (data.withPage w) := by
  rw [new_of_pages (data.withPage v) hall, new_of_pages (data.withPage w) hall]
  dsimp only [PaginationData.withPage] at h ⊢
  rw [h]

/-- A page after the last one is the last one. -/
theorem new_of_after (ht : (data.totalCount.parseOr 1).value = some (t : ℚ)) (hle : t ≤ 2 ^ 53)
    (hs : (data.size.parseOr 20).value = some (s : ℚ)) (hs₁ : 1 ≤ s)
    (hall : data.searchesAll = false)
    (h : ((max (t ⌈/⌉ s) 1 : ℕ) : Number).lt (v.parseOr 1) = true) :
    Pagination.new (data.withPage v) = .new (data.withPage (.number (max (t ⌈/⌉ s) 1 : ℕ))) := by
  have hm := value_lastPage_eq ht hs hle hs₁
  have hm₁ : 1 ≤ max (t ⌈/⌉ s) 1 := le_max_right _ _
  have hm53 := lastPage_le hle hs₁
  have hvalue := value_natCast hm53
  generalize max (t ⌈/⌉ s) 1 = m at *
  have hm₀ : (m : ℚ) ≠ 0 := by exact_mod_cast (by omega : m ≠ 0)
  have hlast : lastPage (data.totalCount.parseOr 1) (data.size.parseOr 20) = m :=
    eq_of_value hm hvalue hm₀
  have hpage : (data.withPage v).requestedPage = v.parseOr 1 := by
    refine if_neg ?_
    change ¬(v.parseOr 1).le 0 = true
    rcases value_cases (v.parseOr 1) with hv | ⟨negative, hv⟩ | ⟨q, hq⟩
    · rw [hv, lt_nan] at h
      exact (Bool.false_ne_true h).elim
    · rw [hv, lt_infinity hvalue, Bool.not_eq_true'] at h
      rw [hv, h]
      decide +kernel
    · rw [lt_iff hvalue hq] at h
      rw [le_iff hq (value_ofNat (n := 0) (by decide)), not_le, Nat.cast_zero]
      exact (Nat.cast_nonneg m).trans_lt h
  refine new_of_clampPage hall ?_
  rw [hlast, hpage, requestedPage_number hm₁ hm53]
  unfold clampPage
  rw [if_pos h, ite_self]

/-- A list of all rows has one page. -/
theorem rows_of_all (hall : data.searchesAll = true)
    (ht : (data.totalCount.parseOr 1).value = some (t : ℚ)) :
    (Pagination.new data).page.value = some 1 ∧ (Pagination.new data).maxPage.value = some 1 ∧
      (Pagination.new data).rows = Set.Iio t := by
  have hone : (1 : Number).value = some ((1 : ℕ) : ℚ) := value_ofNat (by decide)
  have hoffset := value_pageOffset (n := 0) hone ht (by simp) (by decide)
  simp only [Nat.cast_one, sub_self, BinaryFormat.round_zero, zero_mul] at hoffset
  rw [new_of_all data hall]
  refine ⟨value_one, value_one, ?_⟩
  ext r
  rw [Pagination.rows, Set.mem_ofPred_eq, rational_of_value hoffset, rational_of_value ht, zero_add,
    Set.mem_Iio, Nat.cast_lt]
  exact and_iff_right (Nat.cast_nonneg r)

/-- The pages of a list by pages tile its rows, and that of a list of all rows is the whole of
it. -/
theorem pages_tile (ht : (data.totalCount.parseOr 1).value = some (t : ℚ)) :
    (data.searchesAll = false → t ≤ 2 ^ 53 →
      ∀ s : ℕ, (data.size.parseOr 20).value = some (s : ℚ) → 1 ≤ s → ∃ last : ℕ,
        (∀ v, (Pagination.new (data.withPage v)).maxPage.value = some (last : ℚ)) ∧
        PagesTile (fun k => .new (data.withPage (.number k))) t last ∧
        (∀ v, (v.parseOr 1).lt 1 = true →
          Pagination.new (data.withPage v) = .new (data.withPage (.number (1 : ℕ)))) ∧
        ∀ v, (last : Number).lt (v.parseOr 1) = true →
          Pagination.new (data.withPage v) = .new (data.withPage (.number last))) ∧
    (data.searchesAll = true →
      (Pagination.new data).page.value = some 1 ∧ (Pagination.new data).maxPage.value = some 1 ∧
        (Pagination.new data).rows = Set.Iio t) := by
  refine ⟨?_, fun hall => rows_of_all hall ht⟩
  intro hall hle s hs hs₁
  refine ⟨max (t ⌈/⌉ s) 1, ?_, pagesTile ht hle hs hs₁ hall, fun v => new_of_before, ?_⟩
  · intro v
    rw [new_of_pages (data.withPage v) hall]
    exact value_lastPage_eq ht hs hle hs₁
  · intro v
    exact new_of_after ht hle hs hs₁ hall

theorem pages_tile_thirdPage : (∃ last : ℕ, PagesTile
      (fun k => .new (thirdPage.withPage (.number k))) 45 last) ∧
    (Pagination.new { thirdPage with allSearchYn := .str "Y" }).rows = Set.Iio 45 := by
  have htotal : (thirdPage.totalCount.parseOr 1).value = some ((45 : ℕ) : ℚ) := by decide +kernel
  obtain ⟨last, -, htile, -⟩ :=
    (pages_tile htotal).1 rfl (by decide) 10 (by decide +kernel) (by decide)
  obtain ⟨-, -, hrows⟩ :=
    (@pages_tile { thirdPage with allSearchYn := .str "Y" } 45 htotal).2 (by decide +kernel)
  exact ⟨⟨last, htile⟩, hrows⟩

/-- More rows than `2 ^ 53`, one a page. -/
def manyPages : PaginationData where
  totalCount := .number (2 ^ 53 + 2 : ℕ)
  size := .text "1"

/-- No page of them shows the last but one. -/
theorem not_pagesTile_manyPages :
    ¬∃ last : ℕ, PagesTile (fun k => .new (manyPages.withPage (.number k))) (2 ^ 53 + 2) last := by
  rintro ⟨last, h⟩
  have htotal : (manyPages.totalCount.parseOr 1).value = some ((2 ^ 53 + 2 : ℕ) : ℚ) := by
    decide +kernel
  have hsize : (manyPages.size.parseOr 20).value = some ((1 : ℕ) : ℚ) := by decide +kernel
  obtain ⟨k, ⟨-, hrow⟩, -⟩ := h.covers (2 ^ 53 + 1) (by decide)
  have hpages := new_of_pages (manyPages.withPage (.number k)) rfl
  change ((manyPages.withPage (.number k)).totalCount.parseOr 1).value = _ at htotal
  change ((manyPages.withPage (.number k)).size.parseOr 20).value = _ at hsize
  obtain ⟨m, hm, hm₁, hm₂⟩ := value_lastPage htotal hsize (by decide) le_rfl
  obtain ⟨p, hp, hp₁, hpm, -⟩ :=
    value_clampPage hm hm₁ (requestedPage_cases (manyPages.withPage (.number k)))
  have hoffset := value_pageOffset_of_le htotal hsize (by decide) hm hm₂ hp hp₁ hpm
  obtain ⟨o, ho⟩ := isInteger_row p 1
  rw [ho] at hoffset
  -- a page of one row that shows it begins at it, which no number can say
  have heq : o = 2 ^ 53 + 1 := by
    have hmem := hrow
    rw [hpages, Pagination.rows, Set.mem_ofPred_eq] at hmem
    dsimp only at hmem
    rw [rational_of_value hoffset, rational_of_value hsize] at hmem
    have hle : o ≤ ((2 ^ 53 + 1 : ℕ) : ℤ) := by exact_mod_cast hmem.1
    have hlt : ((2 ^ 53 + 1 : ℕ) : ℤ) < o + 1 := by exact_mod_cast hmem.2
    push_cast at hle hlt
    omega
  have hrepresentable := BinaryFormat.round_eq (representable_value hoffset)
  rw [heq] at hrepresentable
  exact absurd hrepresentable (by decide +kernel)

/-! ## Tabs -/

/-- The tabs of a page are those of the block of `width` page numbers that it lies in. -/
structure TabsTile (pages : Param → Pagination) (width last : ℕ) : Prop where
  bounds : ∀ v, ∃ start page end_ : ℕ,
    (pages v).pageRange.start.value = some (start : ℚ) ∧ (pages v).page.value = some (page : ℚ) ∧
    (pages v).pageRange.end_.value = some (end_ : ℚ) ∧ (pages v).maxPage.value = some (last : ℚ) ∧
    1 ≤ start ∧ start ≤ page ∧ page ≤ end_ ∧ end_ ≤ last ∧
    start ≡ 1 [MOD width] ∧ end_ - start < width
  eq_or_disjoint : ∀ v w, (pages v).tabs = (pages w).tabs ∨ Disjoint (pages v).tabs (pages w).tabs
  union : ⋃ v, (pages v).tabs = Set.Icc 1 last

theorem maxPage_withPage (data : PaginationData) (v : Param) :
    (Pagination.new (data.withPage v)).maxPage = (Pagination.new data).maxPage := by
  cases hall : data.searchesAll with
  | true => rw [new_of_all data hall, new_of_all (data.withPage v) hall]
  | false =>
    rw [new_of_pages data hall, new_of_pages (data.withPage v) hall]
    rfl

theorem value_around {page last size : Number} {m : ℕ} (hk : page.value = some (k : ℚ))
    (hm : last.value = some (m : ℚ)) (hb : size.value = some (b : ℚ)) (hk₁ : 1 ≤ k) (hkm : k ≤ m)
    (hb₁ : 1 ≤ b) (hbound : m ⌈/⌉ b * b ≤ 2 ^ 53) :
    (PageRange.around page last size).start.value = some (((k - 1) / b * b + 1 : ℕ) : ℚ) ∧
      (PageRange.around page last size).end_.value =
        some ((min ((k - 1) / b * b + b) m : ℕ) : ℚ) := by
  have hone : (1 : Number).value = some ((1 : ℕ) : ℚ) := value_ofNat (by decide)
  have hceil : k ⌈/⌉ b = (k - 1) / b + 1 := by
    have := succ_ceilDiv hb₁ (k - 1)
    rwa [Nat.sub_add_cancel hk₁] at this
  have hblock : (k - 1) / b * b + b ≤ 2 ^ 53 := by
    have hlt : (k - 1) / b < m ⌈/⌉ b := by
      rw [lt_ceilDiv_iff hb₁]
      have := Nat.div_mul_le_self (k - 1) b
      omega
    calc (k - 1) / b * b + b = ((k - 1) / b + 1) * b := (Nat.add_one_mul _ _).symm
      _ ≤ m ⌈/⌉ b * b := Nat.mul_le_mul_right b hlt
      _ ≤ 2 ^ 53 := hbound
  have hk53 : k ≤ 2 ^ 53 := by
    have := Nat.div_add_mod' (k - 1) b
    have := Nat.mod_lt (k - 1) hb₁
    omega
  have hquotient := value_quotientUp_eq hk hb hk53 hb₁
  have hend := value_mul_natCast hquotient hb (by rwa [hceil, Nat.add_one_mul])
  rw [hceil, Nat.add_one_mul] at hend
  have hpred := value_sub_natCast hb hone hb₁ (by omega)
  have hstart := value_sub_natCast hend hpred (by omega) (by omega)
  have hlt := lt_iff hm hend
  refine ⟨?_, ?_⟩
  · rw [show (k - 1) / b * b + 1 = (k - 1) / b * b + b - (b - 1) by omega]
    exact hstart
  · unfold PageRange.around
    dsimp only
    split
    · next h =>
      rw [hlt, Nat.cast_lt] at h
      rw [min_eq_right h.le, hm]
    · next h =>
      rw [hlt, Nat.cast_lt, not_lt] at h
      rw [min_eq_left h, hend]

/-- A page of the result that is asked for is shown. -/
theorem value_page_number {last : ℕ}
    (hlast : (Pagination.new data).maxPage.value = some (last : ℚ)) (hk₁ : 1 ≤ k)
    (hk : k ≤ last) (hle : last ≤ 2 ^ 53) :
    (Pagination.new (data.withPage (.number k))).page.value = some (k : ℚ) := by
  cases hall : data.searchesAll with
  | true =>
    rw [new_of_all data hall] at hlast
    have heq : last = 1 := by exact_mod_cast Option.some.inj (hlast.symm.trans value_one)
    have hk' : k = 1 := by omega
    rw [new_of_all (data.withPage (.number k)) hall, hk']
    exact value_ofNat (by decide)
  | false =>
    rw [new_of_pages data hall] at hlast
    have hvalue := value_natCast (hk.trans hle)
    have hclamp : clampPage (k : Number)
        (lastPage (data.totalCount.parseOr 1) (data.size.parseOr 20)) = k := by
      refine if_neg ?_
      rw [lt_iff hlast hvalue, not_lt]
      exact_mod_cast hk
    rw [new_of_pages (data.withPage (.number k)) hall,
      requestedPage_number hk₁ (hk.trans hle)]
    exact (congrArg Number.value hclamp).trans hvalue

section Tabs

variable {last : ℕ} (ht : (data.totalCount.parseOr 1).value = some (t : ℚ)) (hlt : t < 10 ^ 21)
  (hs : (data.size.parseOr 20).value = some (s : ℚ)) (hs₁ : 1 ≤ s)
  (hb : (data.pageSize.parseOr 10).value = some (b : ℚ)) (hb₁ : 1 ≤ b)
  (hlast : (Pagination.new data).maxPage.value = some (last : ℚ))
  (hbound : last ⌈/⌉ b * b ≤ 2 ^ 53)

section Shown

include ht hlt hs hs₁ hlast

/-- The page shown is a page of the result. -/
theorem value_shown :
    ∃ k : ℕ, (Pagination.new data).page.value = some (k : ℚ) ∧ 1 ≤ k ∧ k ≤ last := by
  cases hall : data.searchesAll with
  | true =>
    rw [new_of_all data hall] at hlast ⊢
    have heq : last = 1 := by exact_mod_cast Option.some.inj (hlast.symm.trans value_one)
    exact ⟨1, value_ofNat (by decide), le_rfl, heq.ge⟩
  | false =>
    rw [new_of_pages data hall] at hlast ⊢
    obtain ⟨m, hm, hm₁, -⟩ := value_lastPage ht hs hlt hs₁
    have heq : last = m := by exact_mod_cast Option.some.inj (hlast.symm.trans hm)
    obtain ⟨k, hk, hk₁, hkm, -⟩ := value_clampPage hm hm₁ (requestedPage_cases data)
    exact ⟨k, hk, hk₁, hkm.trans heq.ge⟩

end Shown

include ht hlt hs hs₁ hb hb₁ hlast hbound

/-- The tabs of a page, in terms of its number. -/
theorem tabs_spec :
    ∃ k : ℕ, (Pagination.new data).page.value = some (k : ℚ) ∧ 1 ≤ k ∧ k ≤ last ∧
      (Pagination.new data).pageRange.start.value = some (((k - 1) / b * b + 1 : ℕ) : ℚ) ∧
      (Pagination.new data).pageRange.end_.value =
        some ((min ((k - 1) / b * b + b) last : ℕ) : ℚ) ∧
      (Pagination.new data).tabs = {n | n ∈ Set.Icc 1 last ∧ n - 1 ∈ block b ((k - 1) / b)} := by
  obtain ⟨k, hk, hk₁, hkm⟩ := value_shown ht hlt hs hs₁ hlast
  obtain ⟨hstart, hend⟩ := value_around hk hlast hb hk₁ hkm hb₁ hbound
  rw [← pageRange_new] at hstart hend
  refine ⟨k, hk, hk₁, hkm, hstart, hend, ?_⟩
  ext n
  rw [Pagination.tabs, Set.mem_ofPred_eq, rational_of_value hstart, rational_of_value hend,
    Nat.cast_le, Nat.cast_le, Set.mem_ofPred_eq, Set.mem_Icc, block, Set.mem_Ico, Nat.add_one_mul]
  omega

theorem tabsTile : TabsTile (fun v => .new (data.withPage v)) b last := by
  have hlast' (v : Param) : (Pagination.new (data.withPage v)).maxPage.value = some (last : ℚ) := by
    rw [maxPage_withPage]
    exact hlast
  have hspec (v : Param) :=
    @tabs_spec (data.withPage v) t s b last ht hlt hs hs₁ hb hb₁ (hlast' v) hbound
  refine ⟨?_, ?_, ?_⟩
  · intro v
    obtain ⟨k, hk, hk₁, hkm, hstart, hend, -⟩ := hspec v
    have hdiv := Nat.div_add_mod' (k - 1) b
    have hmod := Nat.mod_lt (k - 1) hb₁
    refine ⟨_, k, _, hstart, hk, hend, hlast' v, by omega, by omega, ?_, min_le_right _ _, ?_,
      by omega⟩
    · rw [le_min_iff]
      exact ⟨by omega, hkm⟩
    · exact Nat.mul_add_mod_self_right _ _ _
  · intro v w
    obtain ⟨k, -, -, -, -, -, hv⟩ := hspec v
    obtain ⟨l, -, -, -, -, -, hw⟩ := hspec w
    rw [hv, hw]
    rcases block_eq_or_disjoint hb₁ ((k - 1) / b) ((l - 1) / b) with heq | hdisjoint
    · exact .inl (by rw [heq])
    · exact .inr (Set.disjoint_left.mpr fun n hn hn' =>
        Set.disjoint_left.mp hdisjoint hn.2 hn'.2)
  · ext n
    rw [Set.mem_iUnion]
    constructor
    · rintro ⟨v, hn⟩
      obtain ⟨k, -, -, -, -, -, hv⟩ := hspec v
      rw [hv] at hn
      exact hn.1
    · intro hn
      have hle : last ≤ 2 ^ 53 := by
        have hceil : last ≤ b * (last ⌈/⌉ b) := (ceilDiv_le_iff_le_mul hb₁).mp le_rfl
        rw [mul_comm] at hceil
        exact hceil.trans hbound
      have hpage := value_page_number hlast hn.1 hn.2 hle
      obtain ⟨k, hk, -, -, -, -, hv⟩ := hspec (.number n)
      have heq : k = n := by exact_mod_cast Option.some.inj (hk.symm.trans hpage)
      refine ⟨.number n, ?_⟩
      rw [hv, heq]
      exact ⟨hn, (mem_block_iff hb₁).mpr rfl⟩

end Tabs

/-- The tabs of the pages of a result tile its page numbers. -/
theorem tabs_tile {x : Number} {n last : ℕ} (h : data.totalCount = .number x)
    (hx : x.value = some (n : ℚ)) (hs : (data.size.parseOr 20).value = some (s : ℚ)) (hs₁ : 1 ≤ s)
    (hb : (data.pageSize.parseOr 10).value = some (b : ℚ)) (hb₁ : 1 ≤ b)
    (hlast : (Pagination.new data).maxPage.value = some (last : ℚ))
    (hbound : last ⌈/⌉ b * b ≤ 2 ^ 53) :
    TabsTile (fun v => .new (data.withPage v)) b last := by
  obtain ⟨t, hlt, ht⟩ := value_totalCount h hx
  exact tabsTile ht hlt hs hs₁ hb hb₁ hlast hbound

theorem tabs_tile_thirdPage : TabsTile (fun v => .new (thirdPage.withPage v)) 10 5 :=
  tabs_tile (n := 45) (s := 10) rfl (by decide +kernel) (by decide +kernel) (by decide)
    (by decide +kernel) (by decide) (by decide +kernel) (by decide)

/-- A block of tabs beyond `2 ^ 53`. -/
def largeTabs : PaginationData where
  totalCount := .number 1
  pageSize := .text "9007199254740994"

/-- It does not begin at the first page. -/
theorem not_tabsTile_largeTabs :
    ¬TabsTile (fun v => .new (largeTabs.withPage v)) 9007199254740994 1 := by
  intro h
  obtain ⟨start, page, end_, hstart, hpage, -, -, -, hle, -⟩ := h.bounds .absent
  have hstart' : (Pagination.new (largeTabs.withPage .absent)).pageRange.start.value = some 2 := by
    decide +kernel
  have hpage' : (Pagination.new (largeTabs.withPage .absent)).page.value = some 1 := by
    decide +kernel
  have h₂ : start = 2 := by exact_mod_cast Option.some.inj (hstart.symm.trans hstart')
  have h₁ : page = 1 := by exact_mod_cast Option.some.inj (hpage.symm.trans hpage')
  omega

end NestHarness
